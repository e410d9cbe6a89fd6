import ReversalBench.Lib.Decimal
import Mathlib.Data.List.Infix

/-! Tables as text: rows that end with a newline, of cells separated by commas, without quotes.
A row is read only if its newline is there, so that a text which was cut off is read as the
rows that were written in full. -/

namespace ReversalBench.Csv

/-- The lines that end within the text. -/
def completeLines (text : List Char) : List (List Char) := (text.splitOn '\n').dropLast

def readTable (text : List Char) : List (List (List Char)) :=
  (completeLines text).map fun line => line.splitOn ','

/-- The rows behind the header, each read as a record. -/
def readRecords {β : Type*} (read : List (List Char) → β) (text : List Char) : List β :=
  (readTable text).tail.map read

def line (cells : List (List Char)) : List Char := List.intercalate [','] cells ++ ['\n']

def table (rows : List (List (List Char))) : List Char := rows.flatMap line

/-- A cell that needs no quotes. -/
structure Plain (cell : List Char) : Prop where
  comma : ',' ∉ cell
  newline : '\n' ∉ cell

/-- The rows that can be told apart in the text. -/
def Readable (row : List (List Char)) : Prop := row ≠ [] ∧ ∀ cell ∈ row, Plain cell

variable {c : Char} {s t : List Char} {row : List (List Char)} {rows : List (List (List Char))}

theorem plain_numeral (h : Decimal.Numeral t) : Plain t :=
  ⟨h.not_mem (by decide), h.not_mem (by decide)⟩

/-! ### Lines -/

theorem completeLines_nil : completeLines [] = [] := rfl

theorem completeLines_newline (t : List Char) :
    completeLines ('\n' :: t) = [] :: completeLines t := by
  obtain ⟨l, ls, hsplit⟩ := List.exists_cons_of_ne_nil (List.splitOnP_ne_nil (· == '\n') t)
  simp only [completeLines, List.splitOn, List.splitOnP_cons_eq_if_modifyHead, beq_self_eq_true,
    if_true, hsplit, List.dropLast_cons_cons]

theorem completeLines_cons (hc : c ≠ '\n') (t : List Char) :
    completeLines (c :: t) = (completeLines t).modifyHead (c :: ·) := by
  have hne : (c == '\n') = false := by simpa using hc
  simp only [completeLines, List.splitOn, List.splitOnP_cons_eq_if_modifyHead, hne,
    Bool.false_eq_true, if_false]
  match t.splitOnP (· == '\n') with
  | [] => rfl
  | [_] => rfl
  | _ :: _ :: _ => rfl

theorem completeLines_append_newline (h : '\n' ∉ s) (t : List Char) :
    completeLines (s ++ '\n' :: t) = s :: completeLines t := by
  induction s with
  | nil => exact completeLines_newline t
  | cons c s ih =>
    obtain ⟨hc, hs⟩ := not_or.mp (mt List.mem_cons.mpr h)
    rw [List.cons_append, completeLines_cons (Ne.symm hc), ih hs]
    rfl

theorem modifyHead_mono {ls ms : List (List Char)} (h : ls <+: ms) :
    ls.modifyHead (c :: ·) <+: ms.modifyHead (c :: ·) := by
  cases ls with
  | nil => exact List.nil_prefix
  | cons l ls =>
    obtain ⟨ms, rfl⟩ := h
    exact ⟨ms, rfl⟩

/-- What is cut off takes only the last lines away. -/
theorem completeLines_mono (s t : List Char) : completeLines s <+: completeLines (s ++ t) := by
  induction s with
  | nil => exact List.nil_prefix
  | cons c s ih =>
    rw [List.cons_append]
    by_cases hc : c = '\n'
    · rw [hc, completeLines_newline, completeLines_newline]
      exact (List.prefix_cons_inj _).mpr ih
    · rw [completeLines_cons hc, completeLines_cons hc]
      exact modifyHead_mono ih

/-! ### Tables -/

theorem newline_not_mem_intercalate (h : ∀ cell ∈ row, '\n' ∉ cell) :
    '\n' ∉ List.intercalate [','] row := by
  induction row with
  | nil => simp
  | cons cell row ih =>
    obtain ⟨hcell, hrow⟩ := List.forall_mem_cons.mp h
    cases row with
    | nil => simpa using hcell
    | cons cell' row =>
      have hrest := ih hrow
      rw [List.intercalate_cons_cons, List.mem_append, List.mem_append, not_or, not_or]
      exact ⟨⟨hcell, by decide⟩, hrest⟩

theorem readTable_line (h : Readable row) (t : List Char) :
    readTable (line row ++ t) = row :: readTable t := by
  obtain ⟨hne, hplain⟩ := h
  have hnewline := newline_not_mem_intercalate fun cell hcell => (hplain cell hcell).newline
  have hcells := List.splitOn_intercalate ',' (fun cell hcell => (hplain cell hcell).comma) hne
  rw [readTable, line, List.append_assoc, List.singleton_append,
    completeLines_append_newline hnewline, List.map_cons, hcells, readTable]

/-- A table is read back as it was written. -/
theorem readTable_table (h : ∀ row ∈ rows, Readable row) : readTable (table rows) = rows := by
  induction rows with
  | nil => rfl
  | cons row rows ih =>
    obtain ⟨hrow, hrows⟩ := List.forall_mem_cons.mp h
    rw [table, List.flatMap_cons, readTable_line hrow]
    exact congrArg (row :: ·) (ih hrows)

theorem readTable_mono (s t : List Char) : readTable s <+: readTable (s ++ t) :=
  (completeLines_mono s t).map _

/-- A front part of the text of a table is read as its first rows. -/
theorem readTable_of_prefix (h : ∀ row ∈ rows, Readable row) (ht : t <+: table rows) :
    readTable t <+: rows := by
  obtain ⟨s, hs⟩ := ht
  have hprefix := readTable_mono t s
  rwa [hs, readTable_table h] at hprefix

variable {β : Type*} {read : List (List Char) → β} {header : List (List Char)}

theorem readRecords_table (h : ∀ row ∈ header :: rows, Readable row) :
    readRecords read (table (header :: rows)) = rows.map read := by
  rw [readRecords, readTable_table h, List.tail_cons]

theorem readRecords_of_prefix (h : ∀ row ∈ header :: rows, Readable row)
    (ht : t <+: table (header :: rows)) : readRecords read t <+: rows.map read := by
  have hrows := readTable_of_prefix h ht
  rw [readRecords]
  generalize readTable t = read' at hrows
  cases read' with
  | nil => exact List.nil_prefix
  | cons row rows' => exact (List.cons_prefix_cons.mp hrows).2.map _

end ReversalBench.Csv
