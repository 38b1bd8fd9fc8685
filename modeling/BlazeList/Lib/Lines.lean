import Mathlib.Data.List.Basic
import Mathlib.Tactic.Common

/-!
# Lines

A list is cut after each separator. Every line but the last ends with the separator, and the last one is
not empty.
-/

universe u

namespace Lines

variable {α : Type u} [DecidableEq α] (newline : α)

def splitInclusive : List α → List (List α)
  | [] => []
  | a :: rest =>
      if a = newline then [a] :: splitInclusive rest
      else match splitInclusive rest with
        | [] => [[a]]
        | line :: lines => (a :: line) :: lines

def ending (line : List α) : List α := if line.getLast? = some newline then [newline] else []

inductive Splits : List α → List (List α) → Prop where
  | nil : Splits [] []
  | last {body : List α} (hbody : newline ∉ body) (hnonempty : body ≠ []) : Splits body [body]
  | line {body rest : List α} {lines : List (List α)} (hbody : newline ∉ body)
      (hrest : Splits rest lines) : Splits (body ++ newline :: rest) ((body ++ [newline]) :: lines)

variable {newline}

theorem splitInclusive_append {body rest : List α} (hbody : newline ∉ body) :
    splitInclusive newline (body ++ newline :: rest) =
      (body ++ [newline]) :: splitInclusive newline rest := by
  induction body with
  | nil => rw [List.nil_append, List.nil_append, splitInclusive, if_pos rfl]
  | cons a body ih =>
      obtain ⟨ha, hbody⟩ := not_or.mp (mt List.mem_cons.mpr hbody)
      rw [List.cons_append, splitInclusive, if_neg (Ne.symm ha), ih hbody, List.cons_append]

theorem splitInclusive_of_not_mem {body : List α} (hbody : newline ∉ body) (hnonempty : body ≠ []) :
    splitInclusive newline body = [body] := by
  induction body with
  | nil => exact absurd rfl hnonempty
  | cons a body ih =>
      obtain ⟨ha, hrest⟩ := not_or.mp (mt List.mem_cons.mpr hbody)
      rw [splitInclusive, if_neg (Ne.symm ha)]
      by_cases hempty : body = []
      · rw [hempty]
        rfl
      · rw [ih hrest hempty]

theorem Splits.eq {content : List α} {lines : List (List α)} (h : Splits newline content lines) :
    splitInclusive newline content = lines := by
  induction h with
  | nil => rfl
  | last hbody hnonempty => exact splitInclusive_of_not_mem hbody hnonempty
  | line hbody _ ih => rw [splitInclusive_append hbody, ih]

theorem splits_splitInclusive (content : List α) :
    Splits newline content (splitInclusive newline content) := by
  induction content with
  | nil => exact .nil
  | cons a rest ih =>
      rw [splitInclusive]
      split
      next heq =>
        subst heq
        exact .line List.not_mem_nil ih
      next hne =>
        generalize splitInclusive newline rest = lines at ih
        cases ih with
        | nil => exact .last (by simpa using Ne.symm hne) (List.cons_ne_nil a [])
        | last hbody _ => exact .last (List.not_mem_cons_of_ne_of_not_mem (Ne.symm hne) hbody) (by simp)
        | line hbody hrest =>
            exact .line (List.not_mem_cons_of_ne_of_not_mem (Ne.symm hne) hbody) hrest

omit [DecidableEq α] in
theorem Splits.flatten {content : List α} {lines : List (List α)} (h : Splits newline content lines) :
    lines.flatten = content := by
  induction h with
  | nil => rfl
  | last => rw [List.flatten_cons, List.flatten_nil, List.append_nil]
  | line _ _ ih => rw [List.flatten_cons, ih, List.append_assoc, List.singleton_append]

theorem ending_of_not_mem {body : List α} (hbody : newline ∉ body) : ending newline body = [] :=
  if_neg fun hlast => hbody (List.mem_of_getLast? hlast)

@[simp]
theorem ending_concat (body : List α) : ending newline (body ++ [newline]) = [newline] :=
  if_pos List.getLast?_concat

omit [DecidableEq α] in
theorem Splits.ne_nil {content : List α} {lines : List (List α)} (h : Splits newline content lines)
    (hcontent : content ≠ []) : lines ≠ [] := by
  cases h with
  | nil => exact absurd rfl hcontent
  | last => exact List.cons_ne_nil _ _
  | line => exact List.cons_ne_nil _ _

theorem ending_append_cons {body rest : List α} (hrest : rest ≠ []) :
    ending newline (body ++ newline :: rest) = ending newline rest := by
  rw [ending, ending, List.getLast?_append_of_ne_nil body (List.cons_ne_nil newline rest),
    List.getLast?_cons_of_ne_nil hrest]

/-- Other lines put in the place of these, joined by separators, end as the content does. -/
theorem Splits.intercalate {content : List α} {lines bodies : List (List α)}
    (h : Splits newline content lines) (hlength : bodies.length = lines.length) :
    [newline].intercalate bodies ++ ending newline content =
      (bodies.zipWith (fun body line => body ++ ending newline line) lines).flatten := by
  induction h generalizing bodies with
  | nil =>
      obtain rfl : bodies = [] := List.length_eq_zero_iff.mp hlength
      rfl
  | last hbody hnonempty =>
      obtain ⟨body, rfl⟩ := List.length_eq_one_iff.mp hlength
      simp [ending_of_not_mem hbody, List.intercalate]
  | @line body rest lines hbody hrest ih =>
      obtain ⟨first, bodies, rfl⟩ := List.exists_cons_of_length_eq_add_one hlength
      have hlengthRest : bodies.length = lines.length := Nat.succ.inj hlength
      rw [List.zipWith_cons_cons, List.flatten_cons, ← ih hlengthRest, ending_concat]
      by_cases hempty : rest = []
      · subst hempty
        obtain rfl : [] = lines := hrest.eq
        obtain rfl : bodies = [] := List.length_eq_zero_iff.mp hlengthRest
        simp [ending]
      · have hbodies : bodies ≠ [] := by
          rintro rfl
          exact hrest.ne_nil hempty (List.length_eq_zero_iff.mp hlengthRest.symm)
        rw [ending_append_cons hempty, List.intercalate_cons_of_ne_nil hbodies, List.append_assoc,
          List.append_assoc]

omit [DecidableEq α] in
/-- An element inside a line gives way to another one, neither of them a separator. -/
theorem Splits.replace {content before after : List α} {linesBefore linesAfter : List (List α)} {a b : α}
    (h : Splits newline content (linesBefore ++ (before ++ a :: after) :: linesAfter))
    (hafter : after ≠ []) (hb : b ≠ newline) :
    Splits newline (linesBefore.flatten ++ (before ++ b :: after ++ linesAfter.flatten))
      (linesBefore ++ (before ++ b :: after) :: linesAfter) := by
  induction linesBefore generalizing content with
  | nil =>
      rw [List.nil_append] at h
      rw [List.flatten_nil, List.nil_append, List.nil_append]
      generalize hline : before ++ a :: after = line at h
      have hbody : ∀ {kept : List α}, newline ∉ before ++ a :: kept → newline ∉ before ++ b :: kept := by
        intro kept hnot hmem
        refine hnot ?_
        rw [List.mem_append, List.mem_cons] at hmem ⊢
        exact hmem.imp_right fun hmem => .inr (hmem.resolve_left (Ne.symm hb))
      cases h with
      | last hline' hnonempty =>
          rw [List.flatten_nil, List.append_nil]
          exact .last (hbody (hline ▸ hline')) (by simp)
      | @line body rest lines hline' hrest =>
          obtain ⟨kept, rfl⟩ : ∃ kept, kept ++ [newline] = after := by
            refine ⟨after.dropLast, List.dropLast_append_getLast? newline ?_⟩
            have hlast := congrArg List.getLast? hline
            rwa [List.getLast?_append_of_ne_nil before (List.cons_ne_nil a after),
              List.getLast?_cons_of_ne_nil hafter, List.getLast?_concat] at hlast
          rw [← List.cons_append, ← List.append_assoc] at hline
          obtain rfl := List.append_cancel_right hline
          rw [hrest.flatten, ← List.cons_append, ← List.append_assoc, List.append_assoc _ [newline],
            List.singleton_append]
          exact .line (hbody hline') hrest
  | cons line linesBefore ih =>
      generalize hlines : line :: linesBefore ++ (before ++ a :: after) :: linesAfter = lines at h
      cases h with
      | nil => simp at hlines
      | last => simp at hlines
      | @line body rest lines hline' hrest =>
          obtain ⟨rfl, rfl⟩ := List.cons.inj hlines
          rw [List.flatten_cons, List.append_assoc, List.append_assoc, List.singleton_append]
          exact .line hline' (ih hrest)

end Lines
