import Mathlib.Data.List.Basic

/-!
# Words

A text is cut at white space, and what is left between is its words.
-/

namespace Words

/-- The characters that count as white space in any script. -/
def isWhitespace (c : Char) : Bool :=
  (0x9 ≤ c.toNat ∧ c.toNat ≤ 0xD) ∨ (0x2000 ≤ c.toNat ∧ c.toNat ≤ 0x200A) ∨
    c.toNat ∈ [0x20, 0x85, 0xA0, 0x1680, 0x2028, 0x2029, 0x202F, 0x205F, 0x3000]

def splitWhitespace (text : List Char) : List (List Char) := (text.splitOnP isWhitespace).filter (· ≠ [])

theorem splitWhitespace_cons {word : List Char} (hne : word ≠ []) (hword : ∀ c ∈ word, isWhitespace c = false)
    {blank : Char} (hblank : isWhitespace blank = true) (rest : List Char) :
    splitWhitespace (word ++ blank :: rest) = word :: splitWhitespace rest := by
  unfold splitWhitespace
  rw [List.splitOnP_append_cons_of_forall_mem hword blank hblank]
  simp [hne]

end Words
