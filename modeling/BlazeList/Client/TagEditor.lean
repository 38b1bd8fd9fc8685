import BlazeList.Client.TagDetail

/-!
# Choosing the tags of a card

The card editor keeps the selected tags closed under implication: a tag is selected with its whole
closure, and deselected with everything that needs it.
-/

namespace BlazeList

/-! ### The editor's selection -/

/-- Remove the tag and any tag that transitively requires it, then re-add what the rest still implies. -/
def removeEditorTagCascade (graph : TagGraph) (selectedTags : List Uuid) (tagId : Uuid) : List Uuid :=
  let tags := selectedTags.filter fun t => t ≠ tagId
  let tags := tags.filter fun t => tagId ∉ graph.closureOf [t]
  pushMissing tags (graph.closureOf tags).toList

structure CardEditor where
  selectedTags : List Uuid
  tagSearch : String

/-- The graph is built from all tags, not from the selected ones. -/
def toggleEditorTag (allTags : List Tag) (clearTagSearch : Bool) (editor : CardEditor) (tagId : Uuid) :
    CardEditor :=
  let graph := TagGraph.fromTags allTags
  { selectedTags :=
      if tagId ∈ editor.selectedTags then
        removeEditorTagCascade graph editor.selectedTags tagId
      else
        pushMissing editor.selectedTags (graph.closureOf [tagId]).toList
    tagSearch := if clearTagSearch then "" else editor.tagSearch }

/-- A click on a tag of the list, or the first one of the list with Enter, and a click on the cross of a
selected one. -/
inductive EditorCall where
  | toggleEditorTag (clearTagSearch : Bool) (tagId : Uuid)
  | removeEditorTagCascade (tagId : Uuid)

def CardEditor.call (allTags : List Tag) (editor : CardEditor) : EditorCall → CardEditor
  | .toggleEditorTag clearTagSearch tagId => toggleEditorTag allTags clearTagSearch editor tagId
  | .removeEditorTagCascade tagId =>
      { editor with
        selectedTags := removeEditorTagCascade (TagGraph.fromTags allTags) editor.selectedTags tagId }

/-! ### Repetitions -/

section

variable {tags missing : List Uuid}

/-- No tag is pushed that is there already. -/
theorem count_pushMissing_le (tag : Uuid) :
    (pushMissing tags missing).count tag ≤ max 1 (tags.count tag) := by
  unfold pushMissing
  induction missing generalizing tags with
  | nil => exact le_max_right 1 _
  | cons first rest ih =>
      rw [List.foldl_cons]
      split
      next => exact ih
      next hfresh =>
        refine ih.trans (max_le (le_max_left 1 _) ?_)
        rw [List.count_append, List.count_singleton]
        by_cases htag : first = tag
        · rw [htag] at hfresh
          rw [List.count_eq_zero.mpr hfresh]
          split <;> simp
        · simp [htag]

end

/-! ### Selecting and deselecting -/

section

variable {graph : TagGraph} {tags : List Uuid} {tagId : Uuid}

theorem mem_select {id : Uuid} :
    id ∈ pushMissing tags (graph.closureOf [tagId]).toList ↔ id ∈ tags ∨ id ∈ graph.closureOf [tagId] := by
  rw [mem_pushMissing, Std.TreeSet.mem_toList]

theorem mem_closureOf_singleton {t id : Uuid} : id ∈ graph.closureOf [t] ↔
    Relation.ReflTransGen (Search.Edge graph.impliesOf) t id := by
  rw [TagGraph.mem_closureOf, Search.ReachableFrom]
  simp

theorem closed_select (hclosed : Search.Closed graph.impliesOf {id | id ∈ tags}) :
    Search.Closed graph.impliesOf {id | id ∈ pushMissing tags (graph.closureOf [tagId]).toList} := by
  intro a ha b hb
  apply mem_select.mpr
  rcases mem_select.mp ha with htags | hreached
  · exact .inl (hclosed a htags b hb)
  · rw [mem_closureOf_singleton] at hreached ⊢
    exact .inr (hreached.tail hb)

/-- Of a closed selection, deselecting keeps the tags that do not lead to the deselected one. -/
theorem mem_removeEditorTagCascade (hclosed : Search.Closed graph.impliesOf {id | id ∈ tags}) {id : Uuid} :
    id ∈ removeEditorTagCascade graph tags tagId ↔
      id ∈ tags ∧ ¬ Relation.ReflTransGen (Search.Edge graph.impliesOf) id tagId := by
  have hkept : ∀ {t : Uuid}, t ∈ (tags.filter fun t => t ≠ tagId).filter
      (fun t => tagId ∉ graph.closureOf [t]) ↔
        t ∈ tags ∧ ¬ Relation.ReflTransGen (Search.Edge graph.impliesOf) t tagId := by
    intro t
    rw [List.mem_filter, List.mem_filter, decide_eq_true_eq, decide_eq_true_eq, mem_closureOf_singleton,
      and_assoc]
    refine and_congr_right fun _ => and_iff_right_of_imp ?_
    rintro hreaches rfl
    exact hreaches .refl
  unfold removeEditorTagCascade
  dsimp only
  rw [mem_pushMissing, Std.TreeSet.mem_toList, TagGraph.mem_closureOf, hkept]
  constructor
  · rintro (hmem | ⟨root, hroot, hpath⟩)
    · exact hmem
    · -- what is closed again was there before, and does not lead to the tag either
      obtain ⟨hrootMem, hreaches⟩ := hkept.mp hroot
      exact ⟨hclosed.mem_of_reflTransGen hrootMem hpath, fun hback => hreaches (hpath.trans hback)⟩
  · exact .inl

theorem isGreatest_removeEditorTagCascade (hclosed : Search.Closed graph.impliesOf {id | id ∈ tags}) :
    IsGreatest {nodes : Set Uuid |
        (∀ id ∈ nodes, id ∈ tags) ∧ Search.Closed graph.impliesOf nodes ∧ tagId ∉ nodes}
      {id | id ∈ removeEditorTagCascade graph tags tagId} := by
  constructor
  · refine ⟨fun id hid => ((mem_removeEditorTagCascade hclosed).mp hid).1, fun a ha b hb => ?_, fun htag => ?_⟩
    · obtain ⟨haMem, hreaches⟩ := (mem_removeEditorTagCascade hclosed).mp ha
      refine (mem_removeEditorTagCascade hclosed).mpr ⟨hclosed a haMem b hb, fun hback => ?_⟩
      exact hreaches (.head hb hback)
    · exact ((mem_removeEditorTagCascade hclosed).mp htag).2 .refl
  · rintro nodes ⟨hsub, hnodes, htag⟩ id hid
    refine (mem_removeEditorTagCascade hclosed).mpr ⟨hsub id hid, fun hpath => ?_⟩
    exact htag (hnodes.mem_of_reflTransGen hid hpath)

theorem count_removeEditorTagCascade_le (id : Uuid) :
    (removeEditorTagCascade graph tags tagId).count id ≤ max 1 (tags.count id) := by
  refine (count_pushMissing_le id).trans (max_le_max_left 1 ?_)
  exact (List.filter_sublist.trans List.filter_sublist).count_le id

end

/-! ### Runs of the editor -/

section

variable {allTags : List Tag} {editor : CardEditor}

theorem closed_call (hclosed : Search.Closed (TagGraph.fromTags allTags).impliesOf
    {id | id ∈ editor.selectedTags}) (call : EditorCall) :
    Search.Closed (TagGraph.fromTags allTags).impliesOf
      {id | id ∈ (editor.call allTags call).selectedTags} := by
  cases call with
  | toggleEditorTag clearTagSearch tagId =>
      rw [CardEditor.call, toggleEditorTag]
      dsimp only
      split
      next => exact (isGreatest_removeEditorTagCascade hclosed).1.2.1
      next => exact closed_select hclosed
  | removeEditorTagCascade tagId => exact (isGreatest_removeEditorTagCascade hclosed).1.2.1

theorem count_call_le (call : EditorCall) (id : Uuid) :
    (editor.call allTags call).selectedTags.count id ≤ max 1 (editor.selectedTags.count id) := by
  cases call with
  | toggleEditorTag clearTagSearch tagId =>
      rw [CardEditor.call, toggleEditorTag]
      dsimp only
      split
      next => exact count_removeEditorTagCascade_le id
      next => exact count_pushMissing_le id
  | removeEditorTagCascade tagId => exact count_removeEditorTagCascade_le id

/-- What the calls do to a selection: selecting adds the closure of the tag, and deselecting leaves the
largest closed part without it. -/
structure SelectsExactly (allTags : List Tag) (editor : CardEditor) (tagId : Uuid) : Prop where
  select : tagId ∉ editor.selectedTags → ∀ clearTagSearch id,
    id ∈ (toggleEditorTag allTags clearTagSearch editor tagId).selectedTags ↔
      id ∈ editor.selectedTags ∨ id ∈ (TagGraph.fromTags allTags).closureOf [tagId]
  deselect : tagId ∈ editor.selectedTags → ∀ clearTagSearch,
    (toggleEditorTag allTags clearTagSearch editor tagId).selectedTags =
      removeEditorTagCascade (TagGraph.fromTags allTags) editor.selectedTags tagId
  remove : IsGreatest {nodes : Set Uuid | (∀ id ∈ nodes, id ∈ editor.selectedTags) ∧
      Search.Closed (TagGraph.fromTags allTags).impliesOf nodes ∧ tagId ∉ nodes}
    {id | id ∈ removeEditorTagCascade (TagGraph.fromTags allTags) editor.selectedTags tagId}

theorem selectsExactly (hclosed : Search.Closed (TagGraph.fromTags allTags).impliesOf
    {id | id ∈ editor.selectedTags}) (tagId : Uuid) : SelectsExactly allTags editor tagId where
  select htag clearTagSearch id := by
    rw [toggleEditorTag, if_neg htag]
    exact mem_select
  deselect htag clearTagSearch := by rw [toggleEditorTag, if_pos htag]
  remove := isGreatest_removeEditorTagCascade hclosed

/-- **The selection stays closed**, no call repeats a tag in it, and every call does what it says. -/
theorem editorSelection_run (allTags : List Tag) (editor : CardEditor)
    (hclosed : Search.Closed (TagGraph.fromTags allTags).impliesOf {id | id ∈ editor.selectedTags})
    (calls : List EditorCall) :
    let after := Run.after (CardEditor.call allTags) editor calls
    Search.Closed (TagGraph.fromTags allTags).impliesOf {id | id ∈ after.selectedTags} ∧
      (∀ id, after.selectedTags.count id ≤ max 1 (editor.selectedTags.count id)) ∧
      (editor.selectedTags.Nodup → after.selectedTags.Nodup) ∧
      ∀ tagId, SelectsExactly allTags after tagId := by
  have hafter : Search.Closed (TagGraph.fromTags allTags).impliesOf
      {id | id ∈ (Run.after (CardEditor.call allTags) editor calls).selectedTags} :=
    Run.invariant (fun editor : CardEditor => Search.Closed (TagGraph.fromTags allTags).impliesOf
      {id | id ∈ editor.selectedTags}) hclosed (fun _ call h => closed_call h call) calls
  have hcount : ∀ id, (Run.after (CardEditor.call allTags) editor calls).selectedTags.count id ≤
      max 1 (editor.selectedTags.count id) := fun id =>
    Run.invariant (fun after : CardEditor => after.selectedTags.count id ≤ max 1 (editor.selectedTags.count id))
      (le_max_right 1 _) (fun _ call h => (count_call_le call id).trans (max_le (le_max_left 1 _) h)) calls
  refine ⟨hafter, hcount, fun hnodup => ?_, fun tagId => selectsExactly hafter tagId⟩
  rw [List.nodup_iff_count_le_one] at hnodup ⊢
  exact fun id => (hcount id).trans (max_le le_rfl (hnodup id))

end

def mutualTags : List Tag := [sampleTag 1 [2], sampleTag 2 [1], sampleTag 3 [1]]

/-- The three are selected together, and deselected together. -/
theorem editorSelection_cyclic :
    (Run.after (CardEditor.call mutualTags) ⟨[], "a"⟩
        [.toggleEditorTag true 3]).selectedTags = [1, 2, 3] ∧
      SelectsExactly mutualTags
        (Run.after (CardEditor.call mutualTags) ⟨[], "a"⟩ [.toggleEditorTag true 3]) 2 := by
  constructor
  · decide +kernel
  · have hclosed : Search.Closed (TagGraph.fromTags mutualTags).impliesOf
        {id | id ∈ (⟨[], "a"⟩ : CardEditor).selectedTags} := fun a ha => absurd ha List.not_mem_nil
    obtain ⟨-, -, -, hselects⟩ := editorSelection_run mutualTags ⟨[], "a"⟩ hclosed
      [.toggleEditorTag true 3]
    exact hselects 2

/-- A closed selection that names a tag twice still does so after another one is selected. -/
theorem not_editorSelection_doubled :
    Search.Closed (TagGraph.fromTags mutualTags).impliesOf {id | id ∈ [(4 : Uuid), 4]} ∧
      ¬ (Run.after (CardEditor.call mutualTags) ⟨[4, 4], ""⟩
        [.toggleEditorTag false 3]).selectedTags.Nodup := by
  constructor
  · have hnone : (TagGraph.fromTags mutualTags).impliesOf 4 = [] := by decide +kernel
    intro a ha b hb
    obtain rfl : a = 4 := by simpa using ha
    rw [hnone] at hb
    exact absurd hb List.not_mem_nil
  · have hafter : (Run.after (CardEditor.call mutualTags) ⟨[4, 4], ""⟩
        [.toggleEditorTag false 3]).selectedTags = [4, 4, 1, 2, 3] := by decide +kernel
    rw [hafter]
    decide

end BlazeList
