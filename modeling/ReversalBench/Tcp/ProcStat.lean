import ReversalBench.Lib.StringStream
import Mathlib.Algebra.Field.Rat
import Mathlib.Algebra.Order.Ring.Rat
import Mathlib.Data.Vector.Basic

/-! What the metrics of the C++ TCP benchmark (`metrics_aggregator.cpp`) read from the kernel.
The CPU times are fields 14 and 15 of `/proc/self/stat`, and are taken for the 14th and 15th
word of its line. That is right exactly for the command names without white space. -/

namespace ReversalBench.Tcp

open Words (Blank IsWord Stops ended)

structure ProcStatInfo where
  utime : BitVec 64
  stime : BitVec 64
  deriving DecidableEq

def ProcStatInfo.totalTime (info : ProcStatInfo) : BitVec 64 := info.utime + info.stime

def getline (text : List Char) : List Char := text.takeWhile (· ≠ '\n')

/-- Reads the CPU times from the text of `/proc/self/stat`, if the file could be opened. -/
def getProcStat (statFile : Option (List Char)) : ProcStatInfo :=
  match statFile with
  | none => ⟨0, 0⟩
  | some text =>
    let skipped := StringStream.readWords 13 [] (.new (getline text))
    let utime := skipped.2.readULL 0
    let stime := utime.2.readULL 0
    ⟨utime.1, stime.1⟩

/-- `std::stol`, or an exception. -/
def stol (value : List Char) : Option ℤ :=
  let digits := (StringStream.unsigned value).takeWhile Char.isDigit
  let n : ℤ := Nat.ofDigitChars 10 digits 0
  let signed := if value.head? = some '-' then -n else n
  if digits = [] ∨ signed < -2 ^ 63 ∨ signed ≥ 2 ^ 63 then none else some signed

/-- Reads the peak memory from the text of `/proc/self/status`. An exception is printed to
`std::cerr` only. -/
def getPeakMemoryKb (statusFile : Option (List Char)) : ℤ :=
  match statusFile with
  | none => 0
  | some text =>
    match (text.splitOn '\n').find? ("VmHWM:".toList.isPrefixOf ·) with
    | none => 0
    | some line =>
      let key := (StringStream.new line).readWord []
      (stol (key.2.readWord []).1).getD 0

/-- The members of `MetricsAggregator` about the use of resources. -/
structure ResourceMonitor where
  mResourceMonitoringEnabled : Bool
  mResourceMonitorStartTime : ℤ
  mCpuStatStart : ProcStatInfo
  mAvgCpuUsagePercent : ℚ
  mPeakMemoryKb : ℤ
  mResourceMonitoringActive : Bool

namespace ResourceMonitor

/-- `ENABLE_CLIENT_RESOURCE_MONITORING` is true. -/
def new : ResourceMonitor where
  mResourceMonitoringEnabled := true
  mResourceMonitorStartTime := 0
  mCpuStatStart := ⟨0, 0⟩
  mAvgCpuUsagePercent := 0
  mPeakMemoryKb := 0
  mResourceMonitoringActive := false

def startResourceMonitoring (m : ResourceMonitor) (now : ℤ) (statFile : Option (List Char)) :
    ResourceMonitor :=
  if !m.mResourceMonitoringEnabled || m.mResourceMonitoringActive then m
  else
    { m with
      mResourceMonitorStartTime := now
      mCpuStatStart := getProcStat statFile
      mPeakMemoryKb := 0
      mResourceMonitoringActive := true }

/-- The usage that follows from a number of clock ticks. -/
def cpuUsagePercent (cpuTicksUsed : BitVec 64) (durationSec : ℚ) (clkTck : ℤ) : ℚ :=
  if durationSec > 0 ∧ clkTck > 0 then
    let cpuSecondsUsed : ℚ := cpuTicksUsed.toNat / clkTck
    cpuSecondsUsed / durationSec * 100
  else 0

def stopResourceMonitoring (m : ResourceMonitor) (now : ℤ)
    (statFile statusFile : Option (List Char)) (clkTck : ℤ) : ResourceMonitor :=
  if !m.mResourceMonitoringEnabled || !m.mResourceMonitoringActive then m
  else
    let cpuStatEnd := getProcStat statFile
    let durationSec : ℚ := (now - m.mResourceMonitorStartTime : ℤ) / 1000000000
    let cpuTicksUsed := cpuStatEnd.totalTime - m.mCpuStatStart.totalTime
    { m with
      mPeakMemoryKb := getPeakMemoryKb statusFile
      mAvgCpuUsagePercent := cpuUsagePercent cpuTicksUsed durationSec clkTck
      mResourceMonitoringActive := false }

end ResourceMonitor

/-! ### The format of the kernel -/

/-- An integer in decimal notation. -/
def decimal : ℤ → List Char
  | .ofNat n => Nat.toDigits 10 n
  | .negSucc n => '-' :: Nat.toDigits 10 (n + 1)

/-- A line of `/proc/<pid>/stat` but for its CPU times. Ten integers stand between the state
and the times; any number of them follows. -/
structure StatLine where
  pid : ℕ
  comm : List Char
  state : Char
  state_isAlpha : state.isAlpha = true
  before : List.Vector ℤ 10
  after : List ℤ

namespace StatLine

/-- The fields from the command name up to the times. -/
def front (p : StatLine) : List (List Char) :=
  ('(' :: (p.comm ++ [')'])) :: [p.state] :: p.before.toList.map decimal

/-- The line; its fields are separated by single blanks. -/
def text (p : StatLine) (utime stime : BitVec 64) : List Char :=
  let times := [Nat.toDigits 10 utime.toNat, Nat.toDigits 10 stime.toNat]
  Nat.toDigits 10 p.pid ++
    ((p.front ++ times ++ p.after.map decimal).flatMap (' ' :: ·) ++ ['\n'])

/-- Whatever the times of the process are, they are read, and the usage of the CPU is computed
from what it spent itself. -/
structure ReadsTimes (p : StatLine) : Prop where
  times : ∀ utime stime, getProcStat (some (p.text utime stime)) = ⟨utime, stime⟩
  usage : ∀ (q : StatLine), q.comm = p.comm → ∀ (m : ResourceMonitor),
    m.mResourceMonitoringEnabled = true → m.mResourceMonitoringActive = false →
    ∀ (utime stime utime' stime' : BitVec 64) (now now' : ℤ) (statusFile : Option (List Char))
      (clkTck : ℤ),
    ((m.startResourceMonitoring now (some (p.text utime stime))).stopResourceMonitoring now'
      (some (q.text utime' stime')) statusFile clkTck).mAvgCpuUsagePercent =
    ResourceMonitor.cpuUsagePercent ((utime' + stime') - (utime + stime))
      ((now' - now : ℤ) / 1000000000) clkTck

variable {p q : StatLine} {utime stime : BitVec 64} {l m : List Char}

theorem isWord_decimal (n : ℤ) : IsWord isSpace (decimal n) := by
  cases n with
  | ofNat n => exact StringStream.isWord_toDigits n
  | negSucc n =>
    refine ⟨List.cons_ne_nil _ _, List.forall_mem_cons.mpr ⟨rfl, ?_⟩⟩
    exact (StringStream.isWord_toDigits (n + 1)).solid

theorem isWord_state (p : StatLine) : IsWord isSpace [p.state] := by
  refine ⟨List.cons_ne_nil _ _, fun c hc => ?_⟩
  obtain rfl := List.mem_singleton.mp hc
  have hlow : 65 ≤ p.state.toNat := by
    rcases Bool.or_eq_true_iff.mp p.state_isAlpha with hupper | hlower
    · have h : 65 ≤ p.state.val ∧ p.state.val ≤ 90 := of_decide_eq_true hupper
      exact UInt32.le_iff_toNat_le.mp h.1
    · have h : 97 ≤ p.state.val := of_decide_eq_true (Bool.and_eq_true_iff.mp hlower).1
      exact le_trans (by decide) (UInt32.le_iff_toNat_le.mp h)
  have hne : p.state ≠ ' ' := by
    intro h
    rw [h] at hlow
    revert hlow
    decide
  simp only [isSpace, Bool.or_eq_false_iff, beq_eq_false_iff_ne, Bool.and_eq_false_iff,
    decide_eq_false_iff_not]
  exact ⟨hne, .inr (by omega)⟩

/-! ### Names without white space -/

theorem getline_append (h : '\n' ∉ l) : getline (l ++ m) = l ++ getline m := by
  rw [getline, List.takeWhile_append_of_pos fun c hc => ?_, getline]
  simpa using ne_of_mem_of_not_mem hc h

/-- No line ends in a word. -/
theorem newline_not_mem {w : List Char} (h : IsWord isSpace w) : '\n' ∉ w :=
  fun hmem => nomatch h.solid _ hmem

theorem newline_not_mem_flatMap {ws : List (List Char)} (h : ∀ w ∈ ws, IsWord isSpace w) :
    '\n' ∉ ws.flatMap (' ' :: ·) := by
  intro hmem
  obtain ⟨w, hw, hmem⟩ := List.mem_flatMap.mp hmem
  rcases List.mem_cons.mp hmem with hblank | hmem
  · cases hblank
  · exact newline_not_mem (h w hw) hmem

theorem isWord_front (h : ∀ c ∈ p.comm, isSpace c = false) :
    ∀ w ∈ p.front, IsWord isSpace w := by
  refine List.forall_mem_cons.mpr ⟨⟨List.cons_ne_nil _ _, ?_⟩,
    List.forall_mem_cons.mpr ⟨p.isWord_state, ?_⟩⟩
  · refine List.forall_mem_cons.mpr ⟨rfl, fun c hc => ?_⟩
    rcases List.mem_append.mp hc with hc | hc
    · exact h c hc
    · obtain rfl := List.mem_singleton.mp hc
      rfl
  · rintro w hw
    obtain ⟨n, -, rfl⟩ := List.mem_map.mp hw
    exact isWord_decimal n

theorem stops_flatMap (ws : List (List Char)) :
    Stops isSpace (ws.flatMap (' ' :: ·)) := by
  cases ws with
  | nil => exact Words.stops_nil
  | cons w ws => exact Words.stops_cons rfl

/-- Thirteen words are skipped. -/
theorem readWords_front (h : ∀ c ∈ p.comm, isSpace c = false) (l : List Char) :
    (StringStream.readWords 13 []
      (.new (Nat.toDigits 10 p.pid ++ (p.front.flatMap (' ' :: ·) ++ ' ' :: l)))).2 =
    .new (' ' :: l) := by
  have hpid := StringStream.isWord_toDigits p.pid
  have hstops : Stops isSpace (p.front.flatMap (' ' :: ·) ++ ' ' :: l) := Words.stops_cons rfl
  have hfirst := @StringStream.readWord_word [] _ _ [] (by simp [Blank]) hpid hstops
  have hlength : p.front.length = 12 := by simp [front]
  rw [List.nil_append] at hfirst
  rw [StringStream.readWords_succ, hfirst, ← hlength]
  exact StringStream.readWords_flatMap p.front (isWord_front h) (Words.stops_cons rfl) _

/-- A name without white space is one word, and the times are where they are looked for. -/
theorem getProcStat_text (h : ∀ c ∈ p.comm, isSpace c = false) (utime stime : BitVec 64) :
    getProcStat (some (p.text utime stime)) = ⟨utime, stime⟩ := by
  have hwords : ∀ w ∈ p.front ++ [Nat.toDigits 10 utime.toNat, Nat.toDigits 10 stime.toNat] ++
      p.after.map decimal, IsWord isSpace w := by
    intro w hw
    simp only [List.mem_append, List.mem_cons, List.not_mem_nil, or_false, List.mem_map] at hw
    rcases hw with (hw | rfl | rfl) | ⟨n, -, rfl⟩
    · exact isWord_front h w hw
    · exact StringStream.isWord_toDigits _
    · exact StringStream.isWord_toDigits _
    · exact isWord_decimal n
  have hline : getline (p.text utime stime) =
      Nat.toDigits 10 p.pid ++ (p.front.flatMap (' ' :: ·) ++ ' ' ::
        (Nat.toDigits 10 utime.toNat ++ ' ' ::
          (Nat.toDigits 10 stime.toNat ++ (p.after.map decimal).flatMap (' ' :: ·)))) := by
    rw [text, getline_append (newline_not_mem (StringStream.isWord_toDigits p.pid)),
      getline_append (newline_not_mem_flatMap hwords)]
    simp [getline]
  have hblank : Blank isSpace [' '] := by simp [Blank, isSpace]
  have hstime := StringStream.readULL_toDigits hblank (stops_flatMap (p.after.map decimal)) stime 0
  have hutime := @StringStream.readULL_toDigits [' '] (' ' :: (Nat.toDigits 10 stime.toNat ++
    (p.after.map decimal).flatMap (' ' :: ·))) hblank (Words.stops_cons rfl) utime 0
  simp only [List.singleton_append] at hstime hutime
  simp only [getProcStat, hline, readWords_front h, hutime, hstime]

/-! ### Names with white space -/

theorem getline_append_of_mem (h : '\n' ∈ l) : getline (l ++ m) = getline l := by
  have hshort : ¬(l.takeWhile (· ≠ '\n')).length = l.length := by
    intro hall
    have hself := List.takeWhile_eq_self_iff.mp (List.takeWhile_sublist _ |>.eq_of_length hall)
    exact absurd (hself _ h) (by decide)
  rw [getline, List.takeWhile_append, if_neg hshort, getline]

/-- What was read after fifteen words have ended does not depend on what follows. -/
theorem getProcStat_append (h : '\n' ∉ l → 15 ≤ ended isSpace l) :
    ∃ info, ∀ m, getProcStat (some (l ++ m)) = info := by
  by_cases hline : '\n' ∈ l
  · refine ⟨getProcStat (some l), fun m => ?_⟩
    simp only [getProcStat, getline_append_of_mem hline]
  · obtain ⟨w, rest, hcount, hskip⟩ :=
      StringStream.readWords_append (n := 13) (le_trans (by decide) (h hline)) []
    have hfifteen := h hline
    obtain ⟨utime, rest', failed, hcount', hutime⟩ :=
      @StringStream.readULL_append rest (by omega)
    cases failed with
    | true =>
      refine ⟨⟨utime, 0⟩, fun m => ?_⟩
      simp only [getProcStat, getline_append hline, hskip, hutime, StringStream.readULL_failed]
    | false =>
      obtain ⟨stime, rest'', failed, -, hstime⟩ := @StringStream.readULL_append rest' (by omega)
      refine ⟨⟨utime, stime⟩, fun m => ?_⟩
      simp only [StringStream.new] at hstime
      simp only [getProcStat, getline_append hline, hskip, hutime, hstime]

/-- A name with white space counts for two words at least. -/
theorem two_le_ended {c : Char} (hc : c ∈ p.comm) (hspace : isSpace c = true) :
    2 ≤ ended isSpace (('(' :: (p.comm ++ [')'])) ++ [' ']) := by
  obtain ⟨u, v, hcomm⟩ := List.append_of_mem hc
  have hsplit : ('(' :: (p.comm ++ [')'])) ++ [' '] =
      ('(' :: (u ++ [c])) ++ (v ++ [')', ' ']) := by simp [hcomm]
  have hfirst : 0 < ended isSpace ('(' :: (u ++ [c])) := Words.ended_pos rfl hspace u
  have hsecond : ended isSpace [')', ' '] ≤ ended isSpace (v ++ [')', ' ']) :=
    Words.ended_le_append_left v _
  have hone : ended isSpace [')', ' '] = 1 := by decide
  have hboth := @Words.le_ended_append _ isSpace ('(' :: (u ++ [c])) (v ++ [')', ' '])
  rw [hsplit]
  omega

theorem flatMap_blank (ws : List (List Char)) :
    ws.flatMap (' ' :: ·) ++ [' '] = ' ' :: (ws.map (· ++ [' '])).flatten := by
  induction ws with
  | nil => rfl
  | cons w ws ih => simp [List.flatMap_cons, ih]

/-- The text in front of the second time. -/
def head (p : StatLine) (utime : BitVec 64) : List Char :=
  Nat.toDigits 10 p.pid ++
    ((p.front ++ [Nat.toDigits 10 utime.toNat]).flatMap (' ' :: ·) ++ [' '])

theorem text_eq (p : StatLine) (utime stime : BitVec 64) :
    p.text utime stime = p.head utime ++
      (Nat.toDigits 10 stime.toNat ++ ((p.after.map decimal).flatMap (' ' :: ·) ++ ['\n'])) := by
  simp [text, head]

/-- All fifteen words that are read have ended before the second time begins. -/
theorem fifteen_le_ended {c : Char} (hc : c ∈ p.comm) (hspace : isSpace c = true)
    (utime : BitVec 64) : 15 ≤ ended isSpace (p.head utime) := by
  have hword : ∀ {w : List Char}, IsWord isSpace w → 1 ≤ ended isSpace (w ++ [' ']) :=
    fun hw => hw.ended_pos rfl
  have hpid := hword (StringStream.isWord_toDigits p.pid)
  have hname := two_le_ended hc hspace
  have hstate := hword p.isWord_state
  have hbefore : 10 ≤ (p.before.toList.map fun n => ended isSpace (decimal n ++ [' '])).sum := by
    have hle := List.length_le_sum_of_one_le
      (p.before.toList.map fun n => ended isSpace (decimal n ++ [' '])) ?_
    · simpa using hle
    · intro k hk
      obtain ⟨n, -, rfl⟩ := List.mem_map.mp hk
      exact hword (isWord_decimal n)
  have htime := hword (StringStream.isWord_toDigits utime.toNat)
  have hsplit : p.head utime = (Nat.toDigits 10 p.pid ++ [' ']) ++
      ((p.front ++ [Nat.toDigits 10 utime.toNat]).map (· ++ [' '])).flatten := by
    rw [head, flatMap_blank]
    simp
  have hsum : ended isSpace (('(' :: (p.comm ++ [')'])) ++ [' ']) +
      (ended isSpace ([p.state] ++ [' ']) +
        ((p.before.toList.map fun n => ended isSpace (decimal n ++ [' '])).sum +
          ended isSpace (Nat.toDigits 10 utime.toNat ++ [' ']))) ≤
      ended isSpace ((p.front ++ [Nat.toDigits 10 utime.toNat]).map (· ++ [' '])).flatten := by
    refine le_of_eq_of_le ?_ (Words.sum_ended_le _)
    simp [front, Function.comp_def]
  have hboth := @Words.le_ended_append _ isSpace (Nat.toDigits 10 p.pid ++ [' '])
    ((p.front ++ [Nat.toDigits 10 utime.toNat]).map (· ++ [' '])).flatten
  rw [hsplit]
  omega

/-- With white space in the name, what is read does not depend on the second time. -/
theorem getProcStat_spaced {c : Char} (hc : c ∈ p.comm) (hspace : isSpace c = true)
    (utime : BitVec 64) : ∃ info, ∀ stime, getProcStat (some (p.text utime stime)) = info := by
  obtain ⟨info, hinfo⟩ := getProcStat_append fun _ => fifteen_le_ended hc hspace utime
  refine ⟨info, fun stime => ?_⟩
  rw [text_eq]
  exact hinfo _

/-- The CPU times of a process are read right exactly if there is no white space in its name. -/
theorem readsTimes_iff (p : StatLine) : p.ReadsTimes ↔ ∀ c ∈ p.comm, isSpace c = false := by
  constructor
  · intro h c hc
    by_contra hspace
    obtain ⟨info, hinfo⟩ := getProcStat_spaced hc (Bool.eq_true_of_not_eq_false hspace) 0
    have hsame : (⟨0, 0⟩ : ProcStatInfo) = ⟨0, 1⟩ := by
      rw [← h.times 0 0, ← h.times 0 1, hinfo, hinfo]
    exact absurd hsame (by decide)
  · intro h
    refine ⟨getProcStat_text h, fun q hq m henabled hactive utime stime utime' stime' now now'
      statusFile clkTck => ?_⟩
    have hend := @getProcStat_text q (hq ▸ h) utime' stime'
    simp only [ResourceMonitor.startResourceMonitoring, ResourceMonitor.stopResourceMonitoring,
      henabled, hactive, Bool.not_true, Bool.or_false, Bool.false_eq_true, if_false,
      getProcStat_text h, hend, ProcStatInfo.totalTime]

/-- A program whose name has a blank in it: the number of major faults of its children and its
first time are taken for the two times. -/
theorem not_readsTimes :
    ¬ ReadsTimes ⟨12, ['t', 'c', 'p', ' ', 'c'], 'S', rfl,
      ⟨[1, 12, 12, 0, -1, 4194304, 100, 0, 5, 6], rfl⟩, [0, 0, 20, 0, 1]⟩ := by
  intro h
  have htimes := h.times 77 33
  exact absurd htimes (by decide +kernel)

end StatLine

end ReversalBench.Tcp
