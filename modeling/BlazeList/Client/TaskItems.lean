import BlazeList.Lib.Lines
import Mathlib.Data.List.Infix
import Mathlib.Data.Option.Basic

/-!
# Task items

A card's content is scanned line by line for task-list checkboxes, and a click toggles one of them. Text
is a list of its UTF-8 bytes here: the scanner looks at bytes, and all that it looks for is ASCII.
-/

namespace BlazeList

open Lines (splitInclusive Splits)

/-! ### Lines -/

/-- Drop the newline at the end, and the carriage return in front of it. -/
def stripLineEnding (line : List UInt8) : List UInt8 :=
  if line.getLast? = some 0x0A then
    let line := line.dropLast
    if line.getLast? = some 0x0D then line.dropLast else line
  else line

def lines (content : List UInt8) : List (List UInt8) :=
  (splitInclusive 0x0A content).map stripLineEnding

/-! ### Checkboxes -/

def skipSpaces (bytes : List UInt8) (i : Nat) : Nat :=
  i + ((bytes.drop i).takeWhile fun byte => byte = 0x20).length

/-- The offset of the bracket, and the character behind it: a space, `x` or `X`. -/
def parseTaskItem (bytes : List UInt8) : Option (Nat × UInt8) := do
  let i := skipSpaces bytes 0
  -- a list bullet: -, * or +
  let bullet ← bytes[i]?
  guard (bullet ∈ ([0x2D, 0x2A, 0x2B] : List UInt8))
  let i := i + 1
  guard (bytes[i]? = some 0x20)
  let i := skipSpaces bytes i
  guard (i + 2 < bytes.length ∧ bytes[i]? = some 0x5B)
  let check ← bytes[i + 1]?
  guard (check ∈ ([0x20, 0x78, 0x58] : List UInt8))
  guard (bytes[i + 2]? = some 0x5D)
  return (i, check)

def toggled (check : UInt8) : UInt8 := if check = 0x20 then 0x78 else 0x20

def toggleCheckbox (line : List UInt8) (bracket : Nat) (check : UInt8) : List UInt8 :=
  line.take bracket ++ [0x5B] ++ [toggled check] ++ [0x5D] ++ line.drop (bracket + 3)

structure Toggling where
  current : Nat
  result : List UInt8
  found : Bool

def Toggling.line (index : Nat) (state : Toggling) (i : Nat) (line : List UInt8) : Toggling :=
  let result := if i > 0 then state.result ++ [0x0A] else state.result
  match parseTaskItem line with
  | some (bracket, check) =>
      if state.current = index then
        { current := state.current + 1
          result := result ++ toggleCheckbox line bracket check
          found := true }
      else { state with current := state.current + 1, result := result ++ line }
  | none => { state with result := result ++ line }

def toggleTaskItem (content : List UInt8) (index : Nat) : Option (List UInt8) :=
  let state := (lines content).zipIdx.foldl
    (fun (state : Toggling) (line, i) => state.line index i line) ⟨0, [], false⟩
  let result := if content.getLast? = some 0x0A then state.result ++ [0x0A] else state.result
  if state.found then some result else none

def taskProgress (content : List UInt8) : Option (Nat × Nat) :=
  let (done, total) := (lines content).foldl (fun (done, total) line =>
    match parseTaskItem line with
    | some (_, check) => (if check ≠ 0x20 then done + 1 else done, total + 1)
    | none => (done, total)) (0, 0)
  if total > 0 then some (done, total) else none

def taskTotal (content : List UInt8) : Nat := (taskProgress content).elim 0 Prod.snd

def taskDone (content : List UInt8) : Nat := (taskProgress content).elim 0 Prod.fst

/-! ### What a task line looks like -/

structure IsTaskItem (line : List UInt8) (bracket : Nat) (check : UInt8) (head rest : List UInt8) : Prop where
  line_eq : line = head ++ 0x5B :: check :: 0x5D :: rest
  bracket_eq : bracket = head.length
  check_mem : check ∈ ([0x20, 0x78, 0x58] : List UInt8)
  head_eq : ∃ indent gap bullet, bullet ∈ ([0x2D, 0x2A, 0x2B] : List UInt8) ∧
    head = List.replicate indent 0x20 ++ bullet :: 0x20 :: List.replicate gap 0x20

theorem skipSpaces_append (before after : List UInt8) (n : Nat) {byte : UInt8} (hbyte : byte ≠ 0x20) :
    skipSpaces (before ++ (List.replicate n 0x20 ++ byte :: after)) before.length = before.length + n := by
  rw [skipSpaces, List.drop_left, List.takeWhile_append_of_pos (by simp), List.takeWhile_cons_of_neg (by simpa),
    List.append_nil, List.length_replicate]

/-- What is skipped are spaces. -/
theorem exists_skipSpaces (before rest : List UInt8) :
    ∃ n after, rest = List.replicate n 0x20 ++ after ∧
      skipSpaces (before ++ rest) before.length = before.length + n := by
  induction rest with
  | nil => exact ⟨0, [], rfl, by simp [skipSpaces]⟩
  | cons byte rest ih =>
      by_cases hbyte : byte = 0x20
      · obtain ⟨n, after, hrest, hskip⟩ := ih
        refine ⟨n + 1, after, by rw [hbyte, hrest, List.replicate_succ, List.cons_append], ?_⟩
        rw [skipSpaces, List.drop_left] at hskip ⊢
        subst hbyte
        rw [List.takeWhile_cons_of_pos (by rfl), List.length_cons]
        omega
      · refine ⟨0, byte :: rest, rfl, ?_⟩
        rw [skipSpaces, List.drop_left, List.takeWhile_cons_of_neg (by simpa using hbyte)]
        rfl

theorem skipSpaces_space {bytes : List UInt8} {i : Nat} (h : bytes[i]? = some 0x20) :
    skipSpaces bytes i = skipSpaces bytes (i + 1) := by
  obtain ⟨hlt, hget⟩ := List.getElem?_eq_some_iff.mp h
  rw [skipSpaces, skipSpaces, List.drop_eq_getElem_cons hlt, hget, List.takeWhile_cons_of_pos (by rfl),
    List.length_cons]
  omega

theorem exists_cons_of_getElem? {before rest : List UInt8} {i : Nat} {byte : UInt8}
    (hi : i = before.length) (h : (before ++ rest)[i]? = some byte) : ∃ after, rest = byte :: after := by
  subst hi
  rw [List.getElem?_append_right le_rfl, Nat.sub_self] at h
  cases rest with
  | nil => cases h
  | cons first after => exact ⟨after, by rw [Option.some.inj h]⟩

theorem parseTaskItem_eq_some {bytes : List UInt8} {bracket : Nat} {check : UInt8} :
    parseTaskItem bytes = some (bracket, check) ↔
      (∃ bullet, bytes[skipSpaces bytes 0]? = some bullet ∧ bullet ∈ ([0x2D, 0x2A, 0x2B] : List UInt8)) ∧
        bytes[skipSpaces bytes 0 + 1]? = some 0x20 ∧ skipSpaces bytes (skipSpaces bytes 0 + 1) = bracket ∧
        bytes[bracket]? = some 0x5B ∧ bytes[bracket + 1]? = some check ∧
        check ∈ ([0x20, 0x78, 0x58] : List UInt8) ∧ bytes[bracket + 2]? = some 0x5D := by
  unfold parseTaskItem
  simp only [Option.bind_eq_bind, Option.bind_eq_some_iff, Option.guard_eq_some', Option.pure_def,
    Option.some.injEq, Prod.mk.injEq]
  constructor
  · rintro ⟨bullet, hbullet, -, hmem, -, hspace, -, ⟨-, hopen⟩, check, hcheck, -, hcheckMem, -, hclose, rfl, rfl⟩
    exact ⟨⟨bullet, hbullet, hmem⟩, hspace, rfl, hopen, hcheck, hcheckMem, hclose⟩
  · rintro ⟨⟨bullet, hbullet, hmem⟩, hspace, rfl, hopen, hcheck, hcheckMem, hclose⟩
    obtain ⟨hlt, -⟩ := List.getElem?_eq_some_iff.mp hclose
    exact ⟨bullet, hbullet, (), hmem, (), hspace, (), ⟨hlt, hopen⟩, check, hcheck, (), hcheckMem, (), hclose,
      rfl, rfl⟩

/-- What the scanner accepts is a task line. -/
theorem exists_isTaskItem {bytes : List UInt8} {bracket : Nat} {check : UInt8}
    (h : parseTaskItem bytes = some (bracket, check)) : ∃ head rest, IsTaskItem bytes bracket check head rest := by
  obtain ⟨⟨bullet, hbullet, hmem⟩, hspace, hbracket, hopen, hcheck, hcheckMem, hclose⟩ :=
    parseTaskItem_eq_some.mp h
  obtain ⟨indent, line₁, rfl, hindent⟩ := exists_skipSpaces [] bytes
  rw [List.nil_append, List.length_nil, Nat.zero_add] at hindent
  rw [hindent] at hbullet hspace hbracket
  rw [skipSpaces_space hspace] at hbracket
  obtain ⟨line₂, rfl⟩ := exists_cons_of_getElem? List.length_replicate.symm hbullet
  rw [List.append_cons] at hspace
  obtain ⟨line₃, rfl⟩ := exists_cons_of_getElem? (by simp) hspace
  obtain ⟨gap, line₄, rfl, hgap⟩ :=
    exists_skipSpaces (List.replicate indent 0x20 ++ [bullet, 0x20]) line₃
  have hhead : List.replicate indent 0x20 ++ bullet :: 0x20 :: (List.replicate gap 0x20 ++ line₄) =
      (List.replicate indent 0x20 ++ bullet :: 0x20 :: List.replicate gap 0x20) ++ line₄ := by
    simp
  generalize hdef : List.replicate indent 0x20 ++ bullet :: 0x20 :: List.replicate gap 0x20 = head at hhead
  have hlength : bracket = head.length := by
    rw [← hbracket, ← hdef]
    simpa [Nat.add_assoc, Nat.add_comm, Nat.add_left_comm] using hgap
  rw [hhead] at hopen hcheck hclose
  obtain ⟨line₅, rfl⟩ := exists_cons_of_getElem? hlength hopen
  rw [List.append_cons] at hcheck hclose
  obtain ⟨line₆, rfl⟩ := exists_cons_of_getElem? (by simp [hlength]) hcheck
  rw [List.append_cons] at hclose
  obtain ⟨rest, rfl⟩ := exists_cons_of_getElem? (by simp [hlength]) hclose
  exact ⟨head, rest, hhead, hlength, hcheckMem, indent, gap, bullet, hmem, hdef.symm⟩

/-- The scanner accepts every task line. -/
theorem IsTaskItem.parseTaskItem_eq {bytes head rest : List UInt8} {bracket : Nat} {check : UInt8}
    (h : IsTaskItem bytes bracket check head rest) : parseTaskItem bytes = some (bracket, check) := by
  obtain ⟨rfl, rfl, hcheck, indent, gap, bullet, hbullet, rfl⟩ := h
  rw [parseTaskItem_eq_some]
  generalize hline : List.replicate indent 0x20 ++ bullet :: 0x20 :: List.replicate gap 0x20 ++
      0x5B :: check :: 0x5D :: rest = bytes
  have hindent : skipSpaces bytes 0 = indent := by
    have hne : bullet ≠ 0x20 := by
      rintro rfl
      simp at hbullet
    have hskip := skipSpaces_append [] (0x20 :: List.replicate gap 0x20 ++ 0x5B :: check :: 0x5D :: rest) indent hne
    simpa [← hline] using hskip
  have hspace : bytes[indent + 1]? = some 0x20 := by simp [← hline]
  have hgap : skipSpaces bytes (indent + 1) = indent + (2 + gap) := by
    rw [skipSpaces_space hspace]
    have hopen : (0x5B : UInt8) ≠ 0x20 := by decide
    have hskip := skipSpaces_append (List.replicate indent 0x20 ++ [bullet, 0x20]) (check :: 0x5D :: rest) gap hopen
    simpa [← hline, Nat.add_assoc] using hskip
  have hlength : (List.replicate indent 0x20 ++ bullet :: 0x20 :: List.replicate gap 0x20).length =
      indent + (2 + gap) := by
    simp
    omega
  rw [hindent, hgap, hlength]
  refine ⟨⟨bullet, ?_, hbullet⟩, hspace, rfl, ?_, ?_, hcheck, ?_⟩
  · simp [← hline]
  · rw [← hline, ← hlength, List.getElem?_append_right le_rfl, Nat.sub_self]
    rfl
  · rw [← hline, ← hlength, List.getElem?_append_right (Nat.le_add_right _ 1), Nat.add_sub_cancel_left]
    rfl
  · rw [← hline, ← hlength, List.getElem?_append_right (Nat.le_add_right _ 2), Nat.add_sub_cancel_left]
    rfl

/-- The scanner finds the checkbox of a task line, and of no other line. -/
theorem parseTaskItem_eq_some_iff {bytes : List UInt8} {bracket : Nat} {check : UInt8} :
    parseTaskItem bytes = some (bracket, check) ↔
      ∃ head rest, IsTaskItem bytes bracket check head rest := by
  constructor
  · exact exists_isTaskItem
  · rintro ⟨head, rest, h⟩
    exact h.parseTaskItem_eq

theorem toggled_mem (check : UInt8) : toggled check ∈ ([0x20, 0x78, 0x58] : List UInt8) := by
  rw [toggled]
  split <;> decide

theorem toggled_ne_newline (check : UInt8) : toggled check ≠ 0x0A := by
  rw [toggled]
  split <;> decide

theorem IsTaskItem.toggle {line : List UInt8} {bracket : Nat} {check : UInt8} {head rest : List UInt8}
    (h : IsTaskItem line bracket check head rest) :
    IsTaskItem (head ++ 0x5B :: toggled check :: 0x5D :: rest) bracket (toggled check) head rest where
  line_eq := rfl
  bracket_eq := h.bracket_eq
  check_mem := toggled_mem check
  head_eq := h.head_eq

theorem IsTaskItem.toggleCheckbox {line : List UInt8} {bracket : Nat} {check : UInt8} {head rest : List UInt8}
    (h : IsTaskItem line bracket check head rest) :
    toggleCheckbox line bracket check = head ++ 0x5B :: toggled check :: 0x5D :: rest := by
  obtain ⟨rfl, rfl, -, -⟩ := h
  rw [BlazeList.toggleCheckbox, List.take_left, List.drop_append, List.drop_eq_nil_of_le (Nat.le_add_right _ 3),
    Nat.add_sub_cancel_left]
  simp

/-! ### Line endings -/

theorem stripLineEnding_concat_newline (line : List UInt8) :
    stripLineEnding (line ++ [0x0A]) = if line.getLast? = some 0x0D then line.dropLast else line := by
  rw [stripLineEnding, if_pos List.getLast?_concat, List.dropLast_concat]

theorem stripLineEnding_of_getLast? {line : List UInt8} (h : line.getLast? ≠ some 0x0A) :
    stripLineEnding line = line := if_neg h

/-- What is taken off the end of a line. -/
theorem exists_stripLineEnding (line : List UInt8) :
    ∃ ending, line = stripLineEnding line ++ ending := by
  rw [stripLineEnding]
  split
  next hnewline =>
    have hline : line.dropLast ++ [0x0A] = line := List.dropLast_append_getLast? _ hnewline
    dsimp only
    split
    next hreturn =>
      refine ⟨[0x0D, 0x0A], ?_⟩
      rw [List.append_cons, List.dropLast_append_getLast? _ hreturn, hline]
    next => exact ⟨[0x0A], hline.symm⟩
  next => exact ⟨[], (List.append_nil line).symm⟩

/-- Behind a byte of the text, only what follows the byte can be taken off. -/
theorem stripLineEnding_append_cons (before : List UInt8) (byte : UInt8) (after : List UInt8) (hreturn : byte ≠ 0x0D)
    (hnewline : byte ≠ 0x0A) :
    stripLineEnding (before ++ byte :: after) = before ++ byte :: stripLineEnding after := by
  obtain rfl | ⟨after, last, rfl⟩ := List.eq_nil_or_concat' after
  · rw [stripLineEnding_of_getLast? (by simpa using hnewline)]
    rfl
  by_cases hlast : last = 0x0A
  · subst hlast
    rw [← List.cons_append, ← List.append_assoc, stripLineEnding_concat_newline, stripLineEnding_concat_newline,
      List.getLast?_append_of_ne_nil before (List.cons_ne_nil byte after)]
    by_cases hafter : after = []
    · subst hafter
      rw [List.getLast?_singleton, if_neg (by simpa using hreturn), if_neg (by simp)]
    · rw [List.getLast?_cons_of_ne_nil hafter, List.dropLast_append_of_ne_nil (List.cons_ne_nil byte after),
        List.dropLast_cons_of_ne_nil hafter]
      split
      next => rfl
      next => rfl
  · have hkeep (line : List UInt8) : stripLineEnding (line ++ [last]) = line ++ [last] :=
      stripLineEnding_of_getLast? (by simpa using hlast)
    rw [← List.cons_append, ← List.append_assoc, hkeep, hkeep, List.append_assoc,
      List.cons_append]

/-! ### The run over the lines -/

def isTask (line : List UInt8) : Bool := (parseTaskItem line).isSome

def isDone (line : List UInt8) : Bool :=
  (parseTaskItem line).any fun (_, check) => check ≠ 0x20

theorem isTask_of_eq_some {line : List UInt8} {bracket : Nat} {check : UInt8}
    (h : parseTaskItem line = some (bracket, check)) : isTask line = true := by
  rw [isTask, h]
  rfl

theorem isDone_of_eq_some {line : List UInt8} {bracket : Nat} {check : UInt8}
    (h : parseTaskItem line = some (bracket, check)) : isDone line = decide (check ≠ 0x20) := by
  rw [isDone, h]
  rfl

theorem exists_of_isTask {line : List UInt8} (h : isTask line = true) :
    ∃ bracket check, parseTaskItem line = some (bracket, check) := by
  obtain ⟨⟨bracket, check⟩, hsome⟩ := Option.isSome_iff_exists.mp h
  exact ⟨bracket, check, hsome⟩

theorem foldl_taskProgress (lines : List (List UInt8)) (done total : Nat) :
    lines.foldl (fun (done, total) line =>
        match parseTaskItem line with
        | some (_, check) => (if check ≠ 0x20 then done + 1 else done, total + 1)
        | none => (done, total)) (done, total) =
      (done + lines.countP isDone, total + lines.countP isTask) := by
  induction lines generalizing done total with
  | nil => rfl
  | cons line lines ih =>
      rw [List.foldl_cons, List.countP_cons, List.countP_cons]
      cases hparse : parseTaskItem line with
      | none =>
          dsimp only
          rw [ih, isDone, isTask, hparse]
          rfl
      | some item =>
          obtain ⟨bracket, check⟩ := item
          dsimp only
          rw [ih, isDone_of_eq_some hparse, isTask_of_eq_some hparse]
          refine Prod.ext ?_ ?_
          · simp only [decide_eq_true_eq]
            split <;> omega
          · simp only [if_true]
            omega

theorem isDone_imp_isTask {line : List UInt8} (h : isDone line = true) : isTask line = true := by
  rw [isDone, Option.any_eq_true] at h
  obtain ⟨item, hitem, -⟩ := h
  exact isTask_of_eq_some hitem

theorem taskTotal_eq (content : List UInt8) : taskTotal content = (lines content).countP isTask := by
  rw [taskTotal, taskProgress, foldl_taskProgress]
  dsimp only
  rw [Nat.zero_add, Nat.zero_add]
  split
  next => rfl
  next hzero => exact (Nat.eq_zero_of_not_pos hzero).symm

theorem taskDone_eq (content : List UInt8) : taskDone content = (lines content).countP isDone := by
  rw [taskDone, taskProgress, foldl_taskProgress]
  dsimp only
  rw [Nat.zero_add, Nat.zero_add]
  split
  next => rfl
  next hzero =>
    have hle : (lines content).countP isDone ≤ (lines content).countP isTask :=
      List.countP_mono_left fun _ _ => isDone_imp_isTask
    exact (Nat.le_zero.mp (hle.trans (Nat.le_of_not_lt hzero))).symm

def joinFrom (start : Nat) (lines : List (List UInt8)) : List UInt8 :=
  (lines.zipIdx start).flatMap fun (line, i) => if i > 0 then 0x0A :: line else line

theorem joinFrom_cons (start : Nat) (line : List UInt8) (lines : List (List UInt8)) :
    joinFrom start (line :: lines) =
      (if start > 0 then [0x0A] else []) ++ line ++ joinFrom (start + 1) lines := by
  rw [joinFrom, List.zipIdx_cons, List.flatMap_cons]
  dsimp only
  split
  next => rfl
  next => rfl

theorem joinFrom_append (start : Nat) (lines more : List (List UInt8)) :
    joinFrom start (lines ++ more) = joinFrom start lines ++ joinFrom (start + lines.length) more := by
  rw [joinFrom, List.zipIdx_append, List.flatMap_append]
  rfl

theorem joinFrom_succ (start : Nat) (lines : List (List UInt8)) (line : List UInt8) :
    line ++ joinFrom (start + 1) lines = [0x0A].intercalate (line :: lines) := by
  induction lines generalizing start line with
  | nil => simp [joinFrom, List.intercalate]
  | cons next lines ih =>
      rw [joinFrom_cons, if_pos (Nat.succ_pos start), List.append_assoc, ih,
        List.intercalate_cons_of_ne_nil (List.cons_ne_nil next lines), List.append_assoc]

theorem joinFrom_zero (lines : List (List UInt8)) : joinFrom 0 lines = [0x0A].intercalate lines := by
  cases lines with
  | nil => rfl
  | cons line lines =>
      rw [joinFrom_cons, if_neg (lt_irrefl 0), List.nil_append]
      exact joinFrom_succ 0 lines line

def Toggling.run (index : Nat) (state : Toggling) (start : Nat) (lines : List (List UInt8)) : Toggling :=
  (lines.zipIdx start).foldl (fun (state : Toggling) (line, i) => state.line index i line) state

theorem Toggling.run_append (index : Nat) (state : Toggling) (start : Nat) (lines more : List (List UInt8)) :
    state.run index start (lines ++ more) =
      (state.run index start lines).run index (start + lines.length) more := by
  rw [Toggling.run, List.zipIdx_append, List.foldl_append]
  rfl

theorem Toggling.run_cons (index : Nat) (state : Toggling) (start : Nat) (line : List UInt8)
    (lines : List (List UInt8)) :
    state.run index start (line :: lines) = (state.line index start line).run index (start + 1) lines :=
  rfl

/-- A line that does not hold the `index`-th checkbox is copied. -/
theorem Toggling.line_of_ne {index : Nat} {state : Toggling} (start : Nat) {line : List UInt8}
    (h : isTask line = true → state.current ≠ index) :
    state.line index start line =
      { current := state.current + if isTask line then 1 else 0
        result := state.result ++ ((if start > 0 then [0x0A] else []) ++ line)
        found := state.found } := by
  have hresult : (if start > 0 then state.result ++ [0x0A] else state.result) ++ line =
      state.result ++ ((if start > 0 then [0x0A] else []) ++ line) := by
    split <;> simp
  rw [Toggling.line]
  cases hparse : parseTaskItem line with
  | none =>
      dsimp only
      rw [hresult, isTask, hparse]
      rfl
  | some item =>
      have htask : isTask line = true := by rw [isTask, hparse]; rfl
      dsimp only
      rw [if_neg (h htask), hresult, if_pos htask]

/-- Lines that do not hold the `index`-th checkbox are copied. -/
theorem Toggling.run_of_not_mem {index : Nat} {state : Toggling} (start : Nat) {lines : List (List UInt8)}
    (h : index < state.current ∨ state.current + lines.countP isTask ≤ index) :
    state.run index start lines =
      { current := state.current + lines.countP isTask
        result := state.result ++ joinFrom start lines
        found := state.found } := by
  induction lines generalizing state start with
  | nil => simp [Toggling.run, joinFrom]
  | cons line lines ih =>
      have hne (htask : isTask line = true) : state.current ≠ index := by
        rw [List.countP_cons, if_pos htask] at h
        omega
      have hline := Toggling.line_of_ne start hne
      rw [Toggling.run_cons, hline, ih]
      · rw [joinFrom_cons, List.countP_cons, Toggling.mk.injEq]
        refine ⟨?_, by simp, rfl⟩
        dsimp only
        omega
      · rw [List.countP_cons] at h
        dsimp only
        split at h
        next htask =>
          rw [if_pos htask]
          omega
        next htask =>
          rw [if_neg htask]
          omega

/-- The lines around the `index`-th task line. -/
theorem exists_task {index : Nat} {lines : List (List UInt8)} (h : index < lines.countP isTask) :
    ∃ before line after, lines = before ++ line :: after ∧ before.countP isTask = index ∧
      isTask line = true := by
  induction lines generalizing index with
  | nil => exact absurd h (Nat.not_lt_zero index)
  | cons first lines ih =>
      rw [List.countP_cons] at h
      by_cases htask : isTask first = true ∧ index = 0
      · exact ⟨[], first, lines, rfl, htask.2.symm, htask.1⟩
      · have hle : (if isTask first = true then 1 else 0) ≤ index := by
          split
          next hfirst => exact Nat.pos_of_ne_zero fun hzero => htask ⟨hfirst, hzero⟩
          next => exact Nat.zero_le index
        obtain ⟨before, line, after, rfl, hcount, hline⟩ := ih (Nat.sub_lt_right_of_lt_add hle h)
        refine ⟨first :: before, line, after, rfl, ?_, hline⟩
        rw [List.countP_cons, hcount, Nat.sub_add_cancel hle]

theorem toggleTaskItem_eq (content : List UInt8) (index : Nat) :
    toggleTaskItem content index =
      if (Toggling.run index ⟨0, [], false⟩ 0 (lines content)).found then
        some ((Toggling.run index ⟨0, [], false⟩ 0 (lines content)).result ++
          Lines.ending 0x0A content)
      else none := by
  rw [toggleTaskItem, Lines.ending]
  dsimp only
  rw [← Toggling.run]
  split
  next =>
    split
    next => rfl
    next => rw [List.append_nil]
  next => rfl

theorem toggleTaskItem_of_le {content : List UInt8} {index : Nat} (h : taskTotal content ≤ index) :
    toggleTaskItem content index = none := by
  rw [toggleTaskItem_eq, Toggling.run_of_not_mem 0 (.inr (by simpa [taskTotal_eq] using h))]
  rfl

theorem toggleTaskItem_of_lines {content : List UInt8} {before after : List (List UInt8)} {line : List UInt8}
    {bracket : Nat} {check : UInt8} (hlines : lines content = before ++ line :: after)
    (hparse : parseTaskItem line = some (bracket, check)) :
    toggleTaskItem content (before.countP isTask) =
      some ([0x0A].intercalate (before ++ toggleCheckbox line bracket check :: after) ++
        Lines.ending 0x0A content) := by
  have hrun : Toggling.run (before.countP isTask) ⟨0, [], false⟩ 0 (lines content) =
      { current := (lines content).countP isTask
        result := [0x0A].intercalate (before ++ toggleCheckbox line bracket check :: after)
        found := true } := by
    rw [hlines, Toggling.run_append, Toggling.run_of_not_mem 0 (.inr (Nat.zero_add _).le), Toggling.run_cons,
      Toggling.line, hparse]
    dsimp only
    rw [if_pos (Nat.zero_add _), Toggling.run_of_not_mem _ (.inl (by simp)), ← joinFrom_zero, joinFrom_append,
      joinFrom_cons, List.countP_append, List.countP_cons, if_pos (isTask_of_eq_some hparse), Toggling.mk.injEq]
    refine ⟨by dsimp only; omega, ?_, rfl⟩
    dsimp only
    split
    next => simp
    next => simp
  rw [toggleTaskItem_eq, hrun]
  rfl

/-! ### What is kept -/

def rejoined (line : List UInt8) : List UInt8 := stripLineEnding line ++ Lines.ending 0x0A line

/-- A carriage return in front of the newline is all that a line can lose. -/
theorem rejoined_cases (line : List UInt8) :
    rejoined line = line ∨ [0x0D, 0x0A] <:+ line ∧ (rejoined line).length < line.length := by
  rw [rejoined, Lines.ending]
  by_cases hnewline : line.getLast? = some 0x0A
  · obtain ⟨body, rfl⟩ : ∃ body, body ++ [0x0A] = line := ⟨_, List.dropLast_append_getLast? _ hnewline⟩
    rw [stripLineEnding_concat_newline, if_pos hnewline]
    by_cases hreturn : body.getLast? = some 0x0D
    · obtain ⟨text, rfl⟩ : ∃ text, text ++ [0x0D] = body := ⟨_, List.dropLast_append_getLast? _ hreturn⟩
      rw [if_pos hreturn, List.dropLast_concat]
      exact .inr ⟨⟨text, List.append_cons _ _ _⟩, by simp⟩
    · rw [if_neg hreturn]
      exact .inl rfl
  · rw [stripLineEnding_of_getLast? hnewline, if_neg hnewline, List.append_nil]
    exact .inl rfl

theorem rejoined_return (text : List UInt8) : rejoined (text ++ [0x0D] ++ [0x0A]) = text ++ [0x0A] := by
  rw [rejoined, stripLineEnding_concat_newline, if_pos List.getLast?_concat, List.dropLast_concat,
    Lines.ending_concat]

theorem forall_rejoined_iff {content : List UInt8} {lines : List (List UInt8)}
    (h : Splits 0x0A content lines) :
    (∀ line ∈ lines, rejoined line = line) ↔ ¬ [0x0D, 0x0A] <:+: content := by
  constructor
  · intro hkeep
    induction h with
    | nil => exact fun hcrlf => List.cons_ne_nil _ _ (List.infix_nil.mp hcrlf)
    | last hbody _ => exact fun hcrlf => hbody (hcrlf.subset (by simp))
    | @line body rest lines hbody hrest ih =>
        rintro ⟨before, after, heq⟩
        obtain ⟨hline, hlines⟩ := List.forall_mem_cons.mp hkeep
        rw [List.append_assoc, List.append_eq_append_iff] at heq
        obtain ⟨gap, rfl, hgap⟩ | ⟨gap, rfl, hgap⟩ := heq
        · -- the pair begins inside this line
          rcases gap with _ | ⟨first, _ | ⟨second, gap⟩⟩
          · simp at hgap
          · rw [← (List.cons.inj hgap).1, rejoined_return] at hline
            simpa using congrArg List.length hline
          · rw [← (List.cons.inj (List.cons.inj hgap).2).1] at hbody
            exact hbody (by simp)
        · -- the pair lies in the lines behind this one
          rcases gap with _ | ⟨first, gap⟩
          · simp at hgap
          · exact ih hlines ⟨gap, after, by rw [(List.cons.inj hgap).2, List.append_assoc, List.append_eq]⟩
  · intro hcrlf line hline
    refine (rejoined_cases line).resolve_right fun ⟨hsuffix, _⟩ => hcrlf ?_
    rw [← h.flatten]
    exact hsuffix.isInfix.trans (List.infix_of_mem_flatten hline)

theorem length_flatten_rejoined_le (lines : List (List UInt8)) :
    (lines.map rejoined).flatten.length ≤ lines.flatten.length := by
  induction lines with
  | nil => exact le_rfl
  | cons line lines ih =>
      rw [List.map_cons, List.flatten_cons, List.flatten_cons, List.length_append, List.length_append]
      refine Nat.add_le_add ?_ ih
      rcases rejoined_cases line with hkeep | ⟨-, hlt⟩
      · exact (congrArg List.length hkeep).le
      · exact hlt.le

theorem forall_rejoined_of_length {lines : List (List UInt8)}
    (h : (lines.map rejoined).flatten.length = lines.flatten.length) :
    ∀ line ∈ lines, rejoined line = line := by
  induction lines with
  | nil => exact fun line hline => absurd hline List.not_mem_nil
  | cons line lines ih =>
      rw [List.map_cons, List.flatten_cons, List.flatten_cons, List.length_append, List.length_append] at h
      have hle := length_flatten_rejoined_le lines
      rcases rejoined_cases line with hkeep | ⟨-, hlt⟩
      · rw [hkeep, Nat.add_left_cancel_iff] at h
        exact List.forall_mem_cons.mpr ⟨hkeep, ih h⟩
      · omega

theorem rejoined_checkbox (head tail : List UInt8) (check : UInt8) :
    rejoined (head ++ 0x5B :: check :: 0x5D :: tail) = head ++ 0x5B :: check :: rejoined (0x5D :: tail) := by
  have hstrip := stripLineEnding_append_cons (head ++ [0x5B, check]) 0x5D tail (by decide) (by decide)
  have hstripTail := stripLineEnding_append_cons [] 0x5D tail (by decide) (by decide)
  rw [List.nil_append, List.nil_append] at hstripTail
  simp only [List.append_assoc, List.cons_append, List.nil_append] at hstrip
  rw [rejoined, rejoined, hstrip, hstripTail]
  simp [Lines.ending, List.getLast?_cons_cons]

theorem zipWith_rejoined (lines : List (List UInt8)) :
    (lines.map stripLineEnding).zipWith (fun body line => body ++ Lines.ending 0x0A line) lines =
      lines.map rejoined := by
  induction lines with
  | nil => rfl
  | cons line lines ih =>
      rw [List.map_cons, List.zipWith_cons_cons, ih, List.map_cons]
      rfl

/-- A task line of the content, with what stands around its checkbox. -/
structure TaskLine (content : List UInt8) (before : List (List UInt8)) (head : List UInt8) (check : UInt8)
    (tail : List UInt8) (after : List (List UInt8)) : Prop where
  splits : Splits 0x0A content (before ++ (head ++ 0x5B :: check :: 0x5D :: tail) :: after)
  item : IsTaskItem (head ++ 0x5B :: check :: 0x5D :: stripLineEnding tail) head.length check head
    (stripLineEnding tail)

theorem strip_checkbox (head tail : List UInt8) (check : UInt8) :
    stripLineEnding (head ++ 0x5B :: check :: 0x5D :: tail) =
      head ++ 0x5B :: check :: 0x5D :: stripLineEnding tail := by
  have hstrip := stripLineEnding_append_cons (head ++ [0x5B, check]) 0x5D tail (by decide) (by decide)
  simpa using hstrip

theorem exists_taskLine {content : List UInt8} {index : Nat} (h : index < taskTotal content) :
    ∃ before head check tail after, TaskLine content before head check tail after ∧
      (before.map stripLineEnding).countP isTask = index := by
  rw [taskTotal_eq] at h
  obtain ⟨before, line, after, hlines, hcount, hline⟩ := exists_task h
  obtain ⟨bracket, check, hparse⟩ := exists_of_isTask hline
  obtain ⟨head, rest, hitem⟩ := parseTaskItem_eq_some_iff.mp hparse
  obtain ⟨before, suffix, hsplit, rfl, hsuffix⟩ := List.map_eq_append_iff.mp hlines
  obtain ⟨line, after, rfl, rfl, rfl⟩ := List.map_eq_cons_iff.mp hsuffix
  obtain ⟨ending, hending⟩ := exists_stripLineEnding line
  have hline : line = head ++ 0x5B :: check :: 0x5D :: (rest ++ ending) := by
    rw [hending, hitem.line_eq]
    simp
  have hstrip : stripLineEnding (rest ++ ending) = rest := by
    have hboth := hitem.line_eq
    rw [hline, strip_checkbox] at hboth
    simpa using hboth
  refine ⟨before, head, check, rest ++ ending, after, ⟨?_, ?_⟩, hcount⟩
  · rw [← hline, ← hsplit]
    exact Lines.splits_splitInclusive content
  · rw [hstrip, ← hitem.line_eq, ← hitem.bracket_eq]
    exact hitem

section TaskLine

variable {content : List UInt8} {before : List (List UInt8)} {head : List UInt8} {check : UInt8}
  {tail : List UInt8} {after : List (List UInt8)} (h : TaskLine content before head check tail after)

include h

theorem TaskLine.lines_eq :
    lines content = before.map stripLineEnding ++
      (head ++ 0x5B :: check :: 0x5D :: stripLineEnding tail) :: after.map stripLineEnding := by
  rw [lines, h.splits.eq, List.map_append, List.map_cons, strip_checkbox]

theorem TaskLine.parse :
    parseTaskItem (head ++ 0x5B :: check :: 0x5D :: stripLineEnding tail) = some (head.length, check) :=
  parseTaskItem_eq_some_iff.mpr ⟨head, stripLineEnding tail, h.item⟩

/-- The content with the other character in the checkbox. -/
theorem TaskLine.replace :
    TaskLine (before.flatten ++ (head ++ 0x5B :: toggled check :: 0x5D :: tail ++ after.flatten)) before head
      (toggled check) tail after where
  splits := by
    have hsplits : Splits 0x0A content (before ++ (head ++ [0x5B] ++ check :: 0x5D :: tail) :: after) := by
      rw [← List.append_cons]
      exact h.splits
    have hreplace := hsplits.replace (List.cons_ne_nil 0x5D tail) (toggled_ne_newline check)
    rwa [← List.append_cons] at hreplace
  item := h.item.toggle

/-- What a click makes of the content. -/
theorem TaskLine.toggleTaskItem :
    toggleTaskItem content ((before.map stripLineEnding).countP isTask) =
      some ((before.map rejoined).flatten ++
        (rejoined (head ++ 0x5B :: toggled check :: 0x5D :: tail) ++ (after.map rejoined).flatten)) := by
  have hending : Lines.ending 0x0A (head ++ 0x5B :: check :: 0x5D :: tail) =
      Lines.ending 0x0A (head ++ 0x5B :: toggled check :: 0x5D :: tail) := by
    simp [Lines.ending, List.getLast?_cons_cons]
  rw [toggleTaskItem_of_lines h.lines_eq h.parse, h.item.toggleCheckbox, h.splits.intercalate (by simp),
    List.zipWith_append (by simp), List.zipWith_cons_cons, zipWith_rejoined, zipWith_rejoined,
    List.flatten_append, List.flatten_cons, rejoined, strip_checkbox, hending]

theorem TaskLine.content_eq :
    content = before.flatten ++ (head ++ 0x5B :: check :: 0x5D :: tail ++ after.flatten) := by
  rw [← h.splits.flatten, List.flatten_append, List.flatten_cons]

theorem TaskLine.set_eq :
    content.set (before.flatten.length + head.length + 1) (toggled check) =
      before.flatten ++ (head ++ 0x5B :: toggled check :: 0x5D :: tail ++ after.flatten) := by
  have hset := List.set_append_right (s := before.flatten ++ head ++ [0x5B])
    (t := check :: 0x5D :: tail ++ after.flatten) (before.flatten.length + head.length + 1) (toggled check)
    (by simp; omega)
  have hindex : before.flatten.length + head.length + 1 - (before.flatten ++ head ++ [0x5B]).length = 0 := by
    rw [List.length_append, List.length_append, List.length_singleton, Nat.sub_self]
  rw [hindex] at hset
  rw [h.content_eq]
  simpa using hset

theorem TaskLine.getElem? : content[before.flatten.length + head.length + 1]? = some check := by
  have hlength : before.flatten.length + head.length + 1 = (before.flatten ++ head ++ [0x5B]).length := by
    simp
    omega
  have hcontent : content = (before.flatten ++ head ++ [0x5B]) ++ check :: (0x5D :: tail ++ after.flatten) := by
    rw [h.content_eq]
    simp
  rw [hlength, hcontent, List.getElem?_append_right le_rfl, Nat.sub_self]
  rfl

/-- If no line loses its ending, a click changes the character inside the checkbox. -/
theorem TaskLine.toggleTaskItem_eq_set
    (hkeep : ∀ line ∈ before ++ (head ++ 0x5B :: toggled check :: 0x5D :: tail) :: after, rejoined line = line) :
    BlazeList.toggleTaskItem content ((before.map stripLineEnding).countP isTask) =
      some (content.set (before.flatten.length + head.length + 1) (toggled check)) := by
  rw [List.forall_mem_append, List.forall_mem_cons] at hkeep
  obtain ⟨hbefore, hline, hafter⟩ := hkeep
  rw [h.toggleTaskItem, h.set_eq, hline, List.map_congr_left hbefore, List.map_congr_left hafter, List.map_id',
    List.map_id']

theorem TaskLine.total_replace :
    taskTotal (before.flatten ++ (head ++ 0x5B :: toggled check :: 0x5D :: tail ++ after.flatten)) =
      taskTotal content := by
  rw [taskTotal_eq, taskTotal_eq, h.lines_eq, h.replace.lines_eq, List.countP_append, List.countP_append,
    List.countP_cons, List.countP_cons, isTask_of_eq_some h.parse, isTask_of_eq_some h.replace.parse]

theorem TaskLine.done_replace :
    taskDone (before.flatten ++ (head ++ 0x5B :: toggled check :: 0x5D :: tail ++ after.flatten)) +
        (if check = 0x20 then 0 else 1) =
      taskDone content + if check = 0x20 then 1 else 0 := by
  rw [taskDone_eq, taskDone_eq, h.lines_eq, h.replace.lines_eq, List.countP_append, List.countP_append,
    List.countP_cons, List.countP_cons, isDone_of_eq_some h.parse, isDone_of_eq_some h.replace.parse, toggled]
  by_cases hcheck : check = 0x20
  · simp [hcheck]
    omega
  · simp [hcheck]
    omega

end TaskLine

/-! ### The checkboxes of a content -/

def checkboxesFrom (offset : Nat) : List (List UInt8) → List Nat
  | [] => []
  | line :: lines =>
      match parseTaskItem (stripLineEnding line) with
      | some (bracket, _) => (offset + bracket + 1) :: checkboxesFrom (offset + line.length) lines
      | none => checkboxesFrom (offset + line.length) lines

def checkboxes (content : List UInt8) : List Nat := checkboxesFrom 0 (splitInclusive 0x0A content)

theorem getElem?_checkboxesFrom {before after : List (List UInt8)} {line : List UInt8} {bracket : Nat}
    {check : UInt8} (offset : Nat) (hparse : parseTaskItem (stripLineEnding line) = some (bracket, check)) :
    (checkboxesFrom offset (before ++ line :: after))[(before.map stripLineEnding).countP isTask]? =
      some (offset + before.flatten.length + bracket + 1) := by
  induction before generalizing offset with
  | nil =>
      rw [List.nil_append, checkboxesFrom, hparse]
      rfl
  | cons first before ih =>
      rw [List.cons_append, checkboxesFrom, List.map_cons, List.countP_cons, List.flatten_cons, List.length_append]
      have hrest := ih (offset + first.length)
      rw [Nat.add_assoc offset] at hrest
      cases hfirst : parseTaskItem (stripLineEnding first) with
      | none =>
          rw [isTask, hfirst]
          exact hrest
      | some item =>
          rw [isTask_of_eq_some hfirst, if_pos rfl]
          exact hrest

/-- A click on the checkbox `index` gives the character inside it its other value, and nothing else. -/
structure TogglesOne (content : List UInt8) (index : Nat) : Prop where
  some_iff : (toggleTaskItem content index).isSome ↔ index < taskTotal content
  result : ∀ result, toggleTaskItem content index = some result → ∃ position check,
    (checkboxes content)[index]? = some position ∧ content[position]? = some check ∧
      check ∈ ([0x20, 0x78, 0x58] : List UInt8) ∧
      result = content.set position (if check = 0x20 then 0x78 else 0x20) ∧
      taskTotal result = taskTotal content ∧
      taskDone result + (if check = 0x20 then 0 else 1) = taskDone content + if check = 0x20 then 1 else 0

theorem isSome_toggleTaskItem_iff (content : List UInt8) (index : Nat) :
    (toggleTaskItem content index).isSome ↔ index < taskTotal content := by
  constructor
  · intro hsome
    by_contra hle
    rw [toggleTaskItem_of_le (Nat.le_of_not_lt hle)] at hsome
    cases hsome
  · intro hlt
    obtain ⟨before, head, check, tail, after, htask, rfl⟩ := exists_taskLine hlt
    rw [htask.toggleTaskItem]
    rfl

/-- A click changes one character exactly if no line of the content ends with a carriage return and a
newline: such an ending is written back as a bare newline. -/
theorem togglesOne_iff (content : List UInt8) (index : Nat) :
    TogglesOne content index ↔ (index < taskTotal content → ¬ [0x0D, 0x0A] <:+: content) := by
  constructor
  · intro htoggles hlt
    obtain ⟨before, head, check, tail, after, htask, hindex⟩ := exists_taskLine hlt
    have hrun := htask.toggleTaskItem
    rw [hindex] at hrun
    obtain ⟨position, char, -, -, -, hset, -⟩ := htoggles.result _ hrun
    have hlength := congrArg List.length hset
    rw [List.length_set, htask.content_eq] at hlength
    have hreplaced : ∀ line ∈ before ++ (head ++ 0x5B :: toggled check :: 0x5D :: tail) :: after,
        rejoined line = line := by
      apply forall_rejoined_of_length
      rw [List.map_append, List.map_cons, List.flatten_append, List.flatten_cons, hlength]
      simp
    rw [← forall_rejoined_iff htask.splits]
    rw [List.forall_mem_append, List.forall_mem_cons] at hreplaced ⊢
    refine ⟨hreplaced.1, ?_, hreplaced.2.2⟩
    have hline := hreplaced.2.1
    rw [rejoined_checkbox] at hline ⊢
    simpa using hline
  · intro hkeep
    refine ⟨isSome_toggleTaskItem_iff content index, fun result hresult => ?_⟩
    have hlt : index < taskTotal content :=
      (isSome_toggleTaskItem_iff content index).mp (Option.isSome_of_eq_some hresult)
    obtain ⟨before, head, check, tail, after, htask, rfl⟩ := exists_taskLine hlt
    have hlines := (forall_rejoined_iff htask.splits).mpr (hkeep hlt)
    have hreplaced : ∀ line ∈ before ++ (head ++ 0x5B :: toggled check :: 0x5D :: tail) :: after,
        rejoined line = line := by
      rw [List.forall_mem_append, List.forall_mem_cons] at hlines ⊢
      refine ⟨hlines.1, ?_, hlines.2.2⟩
      have hline := hlines.2.1
      rw [rejoined_checkbox] at hline ⊢
      simpa using hline
    rw [htask.toggleTaskItem_eq_set hreplaced] at hresult
    obtain rfl := Option.some.inj hresult
    refine ⟨_, check, ?_, htask.getElem?, htask.item.check_mem, rfl, ?_⟩
    · rw [checkboxes, htask.splits.eq, getElem?_checkboxesFrom 0 (by rw [strip_checkbox]; exact htask.parse),
        Nat.zero_add]
    · rw [htask.set_eq]
      exact ⟨htask.total_replace, htask.done_replace⟩

/-- A task line with a Windows line ending loses its carriage return. -/
theorem not_togglesOne_crlf : ¬ TogglesOne [0x2D, 0x20, 0x5B, 0x20, 0x5D, 0x20, 0x61, 0x0D, 0x0A] 0 := by
  intro htoggles
  obtain ⟨position, check, -, -, -, hset, -⟩ :=
    htoggles.result [0x2D, 0x20, 0x5B, 0x78, 0x5D, 0x20, 0x61, 0x0A] (by decide)
  have hlength := congrArg List.length hset
  rw [List.length_set] at hlength
  exact absurd hlength (by decide)

end BlazeList
