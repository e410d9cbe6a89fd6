import ReversalBench.Lib.Slices
import ReversalBench.GoTcp.Reversal

/-! The package `reversal` on slices. The loop changes the memory that the slice shows, so
what a caller finds afterwards, in this slice and in others, is a question about the
memory. The loop on lists gives the contents that it leaves in the slice; everything
else stays. The server reverses in place what it received, the client a copy of what it sends. -/

namespace ReversalBench.GoTcp.InMemory

/-- `data[i], data[j] = data[j], data[i]`: both elements are read before one is assigned. -/
def swapBytes (data : Slice) (m : Memory UInt8) (i j : ℤ) : Option (Memory UInt8) := do
  let x ← m.load data i
  let y ← m.load data j
  let m ← m.store data i y
  m.store data j x

/-- The loop from the indices `i` and `j` on. -/
def reverseLoop (data : Slice) (m : Memory UInt8) (i j : ℤ) : Option (Memory UInt8) :=
  if i < j then (swapBytes data m i j).bind fun m => reverseLoop data m (i + 1) (j - 1)
  else some m
termination_by (j - i).toNat

def reverseBytesInPlace (data : Slice) (m : Memory UInt8) : Option (Memory UInt8) :=
  reverseLoop data m 0 (data.len - 1)

def getReversedBytes (data : Slice) (m : Memory UInt8) : Option (Slice × Memory UInt8) := do
  let (reversed, m) := m.make 0 data.len
  let m := m.copy reversed data
  let m ← reverseBytesInPlace reversed m
  return (reversed, m)

variable {data : Slice} {m : Memory UInt8} {i j : ℤ}

theorem load_eq_index : m.load data i = index (m.contents data) i := Memory.load_eq data i

/-- One round on the memory is one round on the contents. -/
theorem swapBytes_eq (hdata : data.Within m) :
    swapBytes data m i j = (GoTcp.swapBytes (m.contents data) i j).map (m.write data) := by
  have hlen := Memory.length_contents hdata
  rw [swapBytes, GoTcp.swapBytes, load_eq_index, load_eq_index]
  cases hx : index (m.contents data) i with
  | none => rfl
  | some x =>
    cases hy : index (m.contents data) j with
    | none => rfl
    | some y =>
      obtain ⟨hi, hi'⟩ := index_bounds hx
      obtain ⟨hj, hj'⟩ := index_bounds hy
      rw [hlen] at hi' hj'
      have hset : ((m.contents data).set i.toNat y).length = data.len := by
        rw [List.length_set, hlen]
      have hdata' := (Memory.within_write (t := data) hdata hset).mpr hdata
      have hset' : (((m.contents data).set i.toNat y).set j.toNat x).length = data.len := by
        rw [List.length_set, hset]
      simp only [Option.bind_eq_bind, Option.bind_some, Memory.store_eq hdata hi hi',
        Memory.store_eq hdata' hj hj', Memory.contents_write hdata hset,
        Memory.write_write hdata hset hset']
      rfl

/-- The loop on the memory leaves in the slice what the loop on its contents computes. -/
theorem reverseLoop_eq (hdata : data.Within m) :
    reverseLoop data m i j = (GoTcp.reverseLoop (m.contents data) i j).map (m.write data) := by
  generalize hl : m.contents data = l
  have hlen : l.length = data.len := by rw [← hl, Memory.length_contents hdata]
  induction l, i, j using GoTcp.reverseLoop.induct generalizing m with
  | case1 l i j hgo ih =>
    rw [reverseLoop, GoTcp.reverseLoop, if_pos hgo, if_pos hgo, swapBytes_eq hdata, hl]
    cases hswap : GoTcp.swapBytes l i j with
    | none => rfl
    | some l' =>
      have hlen' : l'.length = data.len := (length_swapBytes hswap).trans hlen
      have hrest := ih l' ((Memory.within_write hdata hlen').mpr hdata)
        (Memory.contents_write hdata hlen') hlen'
      simp only [Option.map_some, Option.bind_some, hrest]
      refine Option.map_congr fun l'' hloop => ?_
      exact Memory.write_write hdata hlen' ((length_reverseLoop hloop).trans hlen')
  | case2 l i j hstop =>
    rw [reverseLoop, GoTcp.reverseLoop, if_neg hstop, if_neg hstop, Option.map_some, ← hl,
      Memory.write_contents hdata]

theorem reverseBytesInPlace_eq (hdata : data.Within m) :
    reverseBytesInPlace data m = some (m.write data (m.contents data).reverse) := by
  have hlist := GoTcp.reverseBytesInPlace_eq (m.contents data)
  rw [GoTcp.reverseBytesInPlace, Memory.length_contents hdata] at hlist
  rw [reverseBytesInPlace, reverseLoop_eq hdata, hlist, Option.map_some]

/-- The memory once a copy was made and reversed. -/
theorem getReversedBytes_eq (hdata : data.Within m) :
    getReversedBytes data m =
      some ((m.make 0 data.len).1,
        (m.make 0 data.len).2.write (m.make 0 data.len).1 (m.contents data).reverse) := by
  have hlen := Memory.length_contents hdata
  have hnew := Memory.within_make_new (m := m) 0 data.len
  have hroom : (m.make 0 data.len).1.len = data.len := rfl
  have hcopy : (m.make 0 data.len).2.copy (m.make 0 data.len).1 data =
      (m.make 0 data.len).2.write (m.make 0 data.len).1 (m.contents data) := by
    rw [Memory.copy_eq (Memory.within_make 0 data.len hdata) hroom,
      Memory.contents_make 0 data.len hdata]
  have hlen' : (m.contents data).reverse.length = data.len := by rw [List.length_reverse, hlen]
  have hreverse := reverseBytesInPlace_eq ((Memory.within_write hnew hlen).mpr hnew)
  rw [Memory.contents_write hnew hlen, Memory.write_write hnew hlen hlen'] at hreverse
  simp only [getReversedBytes, hcopy, hreverse]
  rfl

/-- The slice ends up reversed, and what other slices show stays. -/
theorem reverseBytesInPlace_contents (hdata : data.Within m) :
    ∃ m', reverseBytesInPlace data m = some m' ∧
      m'.contents data = (m.contents data).reverse ∧
      ∀ s, data.Disjoint s → m'.contents s = m.contents s := by
  have hlen : (m.contents data).reverse.length = data.len := by
    rw [List.length_reverse, Memory.length_contents hdata]
  exact ⟨_, reverseBytesInPlace_eq hdata, Memory.contents_write hdata hlen,
    fun s hs => Memory.contents_write_of_disjoint hdata hlen hs⟩

/-- The new slice shows the reverse, and the slices there were, the argument among them, show what
they showed. -/
theorem getReversedBytes_contents (hdata : data.Within m) :
    ∃ reversed m', getReversedBytes data m = some (reversed, m') ∧
      m'.contents reversed = (m.contents data).reverse ∧
      ∀ s : Slice, s.Within m → m'.contents s = m.contents s := by
  have hnew := Memory.within_make_new (m := m) 0 data.len
  have hlen : (m.contents data).reverse.length = data.len := by
    rw [List.length_reverse, Memory.length_contents hdata]
  refine ⟨_, _, getReversedBytes_eq hdata, Memory.contents_write hnew hlen, fun s hs => ?_⟩
  rw [Memory.contents_write_of_disjoint hnew hlen (Memory.make_disjoint 0 data.len hs),
    Memory.contents_make 0 data.len hs]

/-- The functions on lists, with which the server and the client are modelled, say what these
two leave in the memory. -/
theorem map_contents_reverseBytesInPlace (hdata : data.Within m) :
    (reverseBytesInPlace data m).map (fun m => m.contents data) =
      GoTcp.reverseBytesInPlace (m.contents data) := by
  obtain ⟨m', hplace, hcontents, -⟩ := reverseBytesInPlace_contents hdata
  rw [hplace, GoTcp.reverseBytesInPlace_eq, Option.map_some, hcontents]

theorem map_contents_getReversedBytes (hdata : data.Within m) :
    (getReversedBytes data m).map (fun r => r.2.contents r.1) =
      GoTcp.getReversedBytes (m.contents data) := by
  obtain ⟨reversed, m', hcopy, hreversed, -⟩ := getReversedBytes_contents hdata
  rw [hcopy, GoTcp.getReversedBytes_eq, Option.map_some, hreversed]

/-- Every slice is reversed in place, and into a copy, without a panic; where two programs hold
the same chunk, the one that reverses it in place and the one that reverses a copy get
the same bytes. -/
theorem reversal_inMemory (hdata : data.Within m) :
    (∃ m', reverseBytesInPlace data m = some m' ∧
      m'.contents data = (m.contents data).reverse ∧
      ∀ s, data.Disjoint s → m'.contents s = m.contents s) ∧
    (∃ reversed m', getReversedBytes data m = some (reversed, m') ∧
      m'.contents reversed = (m.contents data).reverse ∧
      m'.contents data = m.contents data) ∧
    ∀ (receivedData : Slice) (server : Memory UInt8), receivedData.Within server →
      server.contents receivedData = m.contents data →
      ∃ server' expectedReversedChunk client',
        reverseBytesInPlace receivedData server = some server' ∧
        getReversedBytes data m = some (expectedReversedChunk, client') ∧
        server'.contents receivedData = client'.contents expectedReversedChunk := by
  obtain ⟨reversed, client', hcopy, hreversed, hkept⟩ := getReversedBytes_contents hdata
  refine ⟨reverseBytesInPlace_contents hdata,
    ⟨reversed, client', hcopy, hreversed, hkept data hdata⟩, fun receivedData server hreceived
      hsame => ?_⟩
  obtain ⟨server', hplace, hcontents, -⟩ := reverseBytesInPlace_contents hreceived
  refine ⟨server', reversed, client', hplace, hcopy, ?_⟩
  rw [hcontents, hreversed, hsame]

/-- A slice in the middle of an array, whose other elements stay, and a server that received the
same three bytes. -/
theorem reversal_inMemory_middle :
    (∃ m', reverseBytesInPlace ⟨0, 1, 3⟩ ⟨[[9, 1, 2, 3, 8], [3, 4]]⟩ = some m' ∧
      m'.contents ⟨0, 1, 3⟩ = [3, 2, 1] ∧ m'.contents ⟨0, 4, 1⟩ = [8]) ∧
    ∃ server' expectedReversedChunk client',
      reverseBytesInPlace ⟨0, 0, 3⟩ ⟨[[1, 2, 3]]⟩ = some server' ∧
      getReversedBytes ⟨0, 1, 3⟩ ⟨[[9, 1, 2, 3, 8], [3, 4]]⟩ =
        some (expectedReversedChunk, client') ∧
      server'.contents ⟨0, 0, 3⟩ = client'.contents expectedReversedChunk := by
  have hdata : (⟨0, 1, 3⟩ : Slice).Within (⟨[[9, 1, 2, 3, 8], [3, 4]]⟩ : Memory UInt8) := by decide
  obtain ⟨⟨m', hplace, hcontents, hkept⟩, -, hsame⟩ := reversal_inMemory hdata
  refine ⟨⟨m', hplace, hcontents, ?_⟩, ?_⟩
  · exact hkept ⟨0, 4, 1⟩ (Or.inr (Or.inl (by decide)))
  · exact hsame ⟨0, 0, 3⟩ ⟨[[1, 2, 3]]⟩ (by decide) (by decide)

end ReversalBench.GoTcp.InMemory
