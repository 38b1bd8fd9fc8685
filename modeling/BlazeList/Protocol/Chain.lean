import BlazeList.Protocol.Types
import Mathlib.Data.List.Chain

/-!
# Chains as clients build them

A client starts an entity with `first` and makes every later version from the one before with `next`.
-/

namespace BlazeList

/-! ### Normalized lists of parents -/

theorem normalizeImplies_pairwise (implies : List Uuid) :
    (normalizeImplies implies).Pairwise (· ≤ ·) :=
  (List.pairwise_insertionSort (· ≤ ·) implies).sublist (List.dedup_sublist _)

theorem normalizeImplies_nodup (implies : List Uuid) : (normalizeImplies implies).Nodup :=
  List.nodup_dedup _

/-- Normalizing twice is normalizing once. -/
theorem normalizeImplies_idem (implies : List Uuid) :
    normalizeImplies (normalizeImplies implies) = normalizeImplies implies := by
  have hsorted : (normalizeImplies implies).insertionSort (· ≤ ·) = normalizeImplies implies :=
    (normalizeImplies_pairwise implies).insertionSort_eq
  rw [normalizeImplies, hsorted]
  exact (normalizeImplies_nodup implies).dedup

/-! ### Steps of a chain -/

/-- A step that keeps a key keeps it along the chain. -/
theorem key_eq_of_isChain {α κ : Type} {step : α → α → Prop} {key : α → κ} {chain : List α}
    (hchain : chain.IsChain step) (hstep : ∀ a b, step a b → key b = key a) :
    ∀ a ∈ chain, ∀ b ∈ chain, key a = key b := by
  have htrans : IsTrans α fun a b => key b = key a := ⟨fun _ _ _ hab hbc => hbc.trans hab⟩
  have hpairwise : chain.Pairwise fun a b => key b = key a :=
    List.isChain_iff_pairwise.mp (hchain.imp hstep)
  intro a ha b hb
  by_cases heq : a = b
  · rw [heq]
  · have hsymm : Std.Symm fun a b : α => key b = key a := ⟨fun _ _ => Eq.symm⟩
    exact (hpairwise.forall ha hb heq).symm

variable [Blake3]

theorem Card.next_eq_some_iff {self card : Card} {content : String} {priority : I64}
    {tags : List Uuid} {blazed : Bool} {modifiedAt : DateTime} {dueDate : Option DateTime} :
    self.next content priority tags blazed modifiedAt dueDate = some card ↔
      Entity.verify card = true ∧ card.id = self.id ∧ card.content = content ∧
        card.priority = priority ∧ card.tags = tags.insertionSort (· ≤ ·) ∧ card.blazed = blazed ∧
        card.createdAt = self.createdAt ∧ card.modifiedAt = modifiedAt ∧ card.dueDate = dueDate ∧
        card.count.val = self.count.val + 1 ∧ card.ancestorHash = self.hash := by
  simp only [Card.next, Option.bind_eq_bind, Option.bind_eq_some_iff, pure, Option.some.injEq,
    NonNegativeI64.tryFrom_eq_some_iff, Entity.verify_iff]
  constructor
  · rintro ⟨count, hcount, rfl⟩
    exact ⟨rfl, rfl, rfl, rfl, rfl, rfl, rfl, rfl, rfl, hcount, rfl⟩
  · rintro ⟨hhash, hid, hcontent, hpriority, htags, hblazed, hcreated, hmodified, hdue, hcount, hancestor⟩
    refine ⟨card.count, hcount, ?_⟩
    obtain ⟨id, _, _, _, _, _, _, _, count, _, hash⟩ := card
    dsimp only at hid hcontent hpriority htags hblazed hcreated hmodified hdue hancestor
    subst hid hcontent hpriority htags hblazed hcreated hmodified hdue hancestor
    rw [Card.mk.injEq]
    exact ⟨rfl, rfl, rfl, rfl, rfl, rfl, rfl, rfl, rfl, rfl, hhash.symm⟩

/-- Only the last count stands in the way of a next version. -/
theorem Card.exists_next_iff (self : Card) (content : String) (priority : I64) (tags : List Uuid)
    (blazed : Bool) (modifiedAt : DateTime) (dueDate : Option DateTime) :
    (∃ next, self.next content priority tags blazed modifiedAt dueDate = some next) ↔
      self.count.val < 9223372036854775807 := by
  simp only [Card.next, Option.bind_eq_bind, Option.bind_eq_some_iff,
    NonNegativeI64.tryFrom_eq_some_iff, pure, Option.some.injEq]
  constructor
  · rintro ⟨-, count, hcount, -⟩
    have hle := count.le_max
    omega
  · intro hcount
    exact ⟨_, ⟨self.count.val + 1, hcount⟩, rfl, rfl⟩

def Card.Next (self next : Card) : Prop :=
  ∃ content priority tags blazed modifiedAt dueDate,
    self.next content priority tags blazed modifiedAt dueDate = some next

def Tag.Next (self next : Tag) : Prop :=
  ∃ title color implies modifiedAt, self.nextWithImplies title color implies modifiedAt = some next

def Card.Built (card : Card) : Prop :=
  (∃ id content priority tags blazed createdAt dueDate,
      Card.first id content priority tags blazed createdAt dueDate = card) ∨
    ∃ previous : Card, previous.Next card

def Tag.Built (tag : Tag) : Prop :=
  (∃ id title color implies createdAt,
      Tag.firstWithImplies id title color implies createdAt = tag) ∨
    ∃ previous : Tag, previous.Next tag

theorem Card.Next.id_eq {self next : Card} (h : self.Next next) : next.id = self.id := by
  obtain ⟨content, priority, tags, blazed, modifiedAt, dueDate, h⟩ := h
  exact (Card.next_eq_some_iff.mp h).2.1

theorem Tag.Next.id_eq {self next : Tag} (h : self.Next next) : next.id = self.id := by
  obtain ⟨title, color, implies, modifiedAt, h⟩ := h
  obtain ⟨count, -, h⟩ := Option.bind_eq_some_iff.mp h
  rw [← Option.some.inj h]

theorem Tag.Next.normalized {self next : Tag} (h : self.Next next) :
    normalizeImplies next.implies = next.implies := by
  obtain ⟨title, color, implies, modifiedAt, h⟩ := h
  obtain ⟨count, -, h⟩ := Option.bind_eq_some_iff.mp h
  rw [← Option.some.inj h]
  exact normalizeImplies_idem implies

theorem Tag.Built.normalized {tag : Tag} (h : tag.Built) :
    normalizeImplies tag.implies = tag.implies := by
  rcases h with ⟨id, title, color, implies, createdAt, rfl⟩ | ⟨previous, hnext⟩
  · exact normalizeImplies_idem implies
  · exact hnext.normalized

/-! ### Built chains -/

def PushItem.Built : PushItem → Prop
  | .cards versions => (∀ first ∈ versions.head?, first.Built) ∧ versions.IsChain Card.Next
  | .tags versions => (∀ first ∈ versions.head?, first.Built) ∧ versions.IsChain Tag.Next
  | .deleteCard _ | .deleteTag _ => True

/-- Every version of a built chain of tags lists its parents in order and once. -/
theorem normalized_of_chain {versions : List Tag} (hfirst : ∀ first ∈ versions.head?, first.Built)
    (hchain : versions.IsChain Tag.Next) :
    ∀ tag ∈ versions, normalizeImplies tag.implies = tag.implies := by
  induction versions with
  | nil => simp
  | cons first rest ih =>
      intro tag htag
      rcases List.mem_cons.mp htag with rfl | htag
      · exact (hfirst tag rfl).normalized
      · refine ih (fun second hsecond => .inr ⟨first, ?_⟩) hchain.tail tag htag
        obtain ⟨tail, rfl⟩ : ∃ tail, rest = second :: tail := List.head?_eq_some_iff.mp hsecond
        exact (List.isChain_cons_cons.mp hchain).1

omit [Blake3] in
theorem sampleCard_built (id : Uuid) (priority : I64) :
    @PushItem.Built polynomialBlake3 (.cards [sampleCard id priority]) :=
  ⟨by rintro _ ⟨⟩; exact .inl ⟨id, "", priority, [], false, .epoch, none, rfl⟩, .singleton _⟩

omit [Blake3] in
theorem sampleTag_built (id : Uuid) (implies : List Uuid) :
    @PushItem.Built polynomialBlake3 (.tags [sampleTag id implies]) :=
  ⟨by rintro _ ⟨⟩; exact .inl ⟨id, "", none, implies, .epoch, rfl⟩, .singleton _⟩

end BlazeList
