import BlazeList.Server.Commit

/-!
# Deleted tags in tag lists

Only the delete of a tag looks whether a card still lists it. A tombstone does not say which kind of
entity it is for, so a run is traced together with the ids that were deleted as tags.
-/

namespace BlazeList

/-- A store, and the ids that were deleted as tags on the way to it. -/
structure TagTrace where
  store : Store
  deletedTags : List Uuid

def PushItem.deletedTags : PushItem → List Uuid
  | .deleteTag id => [id]
  | .cards _ | .tags _ | .deleteCard _ => []

def TagTrace.initial : TagTrace := ⟨initSchema, []⟩

def ListsNone (store : Store) (deletedTags : List Uuid) : Prop :=
  ∀ row ∈ store.cards.live, ∀ tag ∈ row.entity.tags, tag ∉ deletedTags

def PushItem.AttachesNone (deletedTags : List Uuid) : PushItem → Prop
  | .cards versions => ∀ latest ∈ versions.getLast?, ∀ tag ∈ latest.tags, tag ∉ deletedTags
  | .tags _ | .deleteCard _ | .deleteTag _ => True

/-- Neither do the items of a batch, each after the deletes before it. -/
def ItemsAttachNone : List Uuid → List PushItem → Prop
  | _, [] => True
  | deletedTags, item :: rest =>
      item.AttachesNone deletedTags ∧ ItemsAttachNone (item.deletedTags ++ deletedTags) rest

instance (deletedTags : List Uuid) : (item : PushItem) → Decidable (item.AttachesNone deletedTags)
  | .cards versions =>
      decidable_of_iff
        (∀ latest ∈ versions.getLast?, latest.tags.all (fun tag => tag ∉ deletedTags) = true)
        (by simp [PushItem.AttachesNone])
  | .tags _ | .deleteCard _ | .deleteTag _ => isTrue trivial

instance : (deletedTags : List Uuid) → (items : List PushItem) →
    Decidable (ItemsAttachNone deletedTags items)
  | _, [] => isTrue trivial
  | deletedTags, item :: rest =>
      have : Decidable (ItemsAttachNone (item.deletedTags ++ deletedTags) rest) :=
        instDecidableItemsAttachNone _ rest
      inferInstanceAs (Decidable (_ ∧ _))

section

variable [Blake3]

def TagTrace.step (trace : TagTrace) (call : Call) : TagTrace :=
  match perform trace.store call with
  | some after => ⟨after, call.mutation.items.flatMap PushItem.deletedTags ++ trace.deletedTags⟩
  | none => trace

def deletedTagIds (calls : List Call) : List Uuid :=
  (Run.after TagTrace.step .initial calls).deletedTags

theorem TagTrace.step_store (trace : TagTrace) (call : Call) :
    (trace.step call).store = execute trace.store call := by
  unfold TagTrace.step execute
  cases perform trace.store call <;> rfl

theorem after_step_store (trace : TagTrace) (calls : List Call) :
    (Run.after TagTrace.step trace calls).store = Run.after execute trace.store calls := by
  induction calls generalizing trace with
  | nil => rfl
  | cons call rest ih => rw [Run.after_cons, Run.after_cons, ih, TagTrace.step_store]

variable {store after : Store} {deletedTags : List Uuid}

/-- An item keeps deleted tags out of the lists exactly when it attaches none. -/
theorem ListsNone.pushItem_iff (hinv : ListsNone store deletedTags) {item : PushItem}
    (h : pushItem store item = .ok after) :
    ListsNone after (item.deletedTags ++ deletedTags) ↔ item.AttachesNone deletedTags := by
  rcases pushItem_cases h with ⟨versions, _, _, latest, rfl, hpushed, rfl⟩ |
    ⟨versions, _, _, _, rfl, -, rfl⟩ | ⟨id, rfl, -, -, rfl⟩ | ⟨id, rfl, -, -, hunlisted, -, rfl⟩
  · constructor
    · intro hafter other hother
      obtain rfl : latest = other := Option.some.inj (hpushed.last.symm.trans hother)
      exact hafter _ (hpushed.mem_live.mpr (.inr rfl))
    · intro hattaches row hrow
      rcases hpushed.mem_live.mp hrow with ⟨hold, -⟩ | rfl
      · exact hinv row hold
      · exact hattaches latest hpushed.last
  · exact iff_of_true hinv trivial
  · exact iff_of_true (fun row hrow => hinv row (EntityTables.mem_live_remove.mp hrow).1) trivial
  · refine iff_of_true (fun row hrow tag htag hmem => ?_) trivial
    rcases List.mem_cons.mp hmem with rfl | hmem
    · exact hunlisted row hrow htag
    · exact hinv row hrow tag htag hmem

theorem ListsNone.writes {written : Store} {items : List PushItem} (h : Writes store items written)
    (hinv : ListsNone store deletedTags) (hattaches : ItemsAttachNone deletedTags items) :
    ListsNone written (items.flatMap PushItem.deletedTags ++ deletedTags) := by
  induction items generalizing store deletedTags with
  | nil => exact writes_nil.mp h ▸ hinv
  | cons item rest ih =>
      obtain ⟨next, hnext, hrest⟩ := writes_cons.mp h
      have hwritten := ih hrest ((hinv.pushItem_iff hnext).mpr hattaches.1) hattaches.2
      intro row hrow tag htag hmem
      apply hwritten row hrow tag htag
      rw [List.flatMap_cons, List.append_assoc, List.mem_append, List.mem_append] at hmem
      rw [List.mem_append, List.mem_append]
      tauto

/-- If the call is accepted, it attaches no tag that was deleted before. -/
def CallAttachesNone (trace : TagTrace) (call : Call) : Prop :=
  (perform trace.store call).isSome → ItemsAttachNone trace.deletedTags call.mutation.items

instance (trace : TagTrace) (call : Call) : Decidable (CallAttachesNone trace call) :=
  inferInstanceAs (Decidable (_ → _))

theorem ListsNone.step {trace : TagTrace} {call : Call}
    (hinv : ListsNone trace.store trace.deletedTags) (hcall : CallAttachesNone trace call) :
    ListsNone (trace.step call).store (trace.step call).deletedTags := by
  unfold TagTrace.step
  cases hperform : perform trace.store call with
  | none => exact hinv
  | some after =>
      rcases perform_eq_some_iff.mp hperform with ⟨hempty, rfl⟩ | ⟨-, written, -, hcommitted⟩
      · rw [hempty]
        exact hinv
      · have hwritten := ListsNone.writes hcommitted.writes hinv (hcall (by rw [hperform]; rfl))
        intro row hrow
        dsimp only at hrow
        rw [hcommitted.cards_eq] at hrow
        obtain ⟨old, hold, rfl⟩ := EntityTables.mem_live_stampAll.mp hrow
        split <;> exact hwritten old hold

/-- In a run whose accepted calls attach no deleted tag, no live card lists one. -/
theorem deletedTags_run {calls : List Call}
    (hmeets : Run.Meets TagTrace.step CallAttachesNone .initial calls) :
    ∀ row ∈ (Run.after execute initSchema calls).cards.live, ∀ tag ∈ row.entity.tags,
      tag ∉ deletedTagIds calls := by
  have hinv : ListsNone (Run.after TagTrace.step .initial calls).store
      (Run.after TagTrace.step .initial calls).deletedTags :=
    hmeets.invariant (fun trace => ListsNone trace.store trace.deletedTags)
      (fun row hrow => absurd hrow (Table.not_mem_empty row)) fun _ _ hbefore hcall =>
        hbefore.step hcall
  rw [after_step_store] at hinv
  exact hinv

end

def taggedCard (id tag : Uuid) : Card :=
  @Card.first polynomialBlake3 id "" ⟨0, zero_mem_i64⟩ [tag] false .epoch none

/-- A tag goes once the card that lists it is gone, and the next card has another tag. -/
theorem deletedTags_sample :
    let _ := polynomialBlake3
    let calls : List Call := [⟨.pushTagVersions [sampleTag 1 []], 0⟩, ⟨.pushCardVersions [taggedCard 2 1], 1⟩,
      ⟨.deleteTag 1, 2⟩, ⟨.deleteCard 2, 3⟩, ⟨.deleteTag 1, 4⟩, ⟨.pushTagVersions [sampleTag 3 []], 5⟩,
      ⟨.pushCardVersions [taggedCard 4 3], 6⟩]
    deletedTagIds calls = [1] ∧
      (Run.after execute initSchema calls).cards.live.rows.map (·.entity.tags) = [[3]] ∧
      ∀ row ∈ (Run.after execute initSchema calls).cards.live, ∀ tag ∈ row.entity.tags,
        tag ∉ deletedTagIds calls :=
  ⟨by decide +kernel, by decide +kernel, @deletedTags_run polynomialBlake3 _ (by decide +kernel)⟩

/-- A card that lists the deleted tag is pushed. -/
theorem not_deletedTags_reattached :
    let _ := polynomialBlake3
    let calls : List Call := [⟨.pushTagVersions [sampleTag 1 []], 0⟩, ⟨.deleteTag 1, 1⟩,
      ⟨.pushCardVersions [taggedCard 2 1], 2⟩]
    deletedTagIds calls = [1] ∧
      (Run.after execute initSchema calls).cards.live.rows.map (·.entity.tags) = [[1]] := by
  decide +kernel

end BlazeList
