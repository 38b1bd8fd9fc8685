import BlazeList.Client.Links
import Mathlib.Data.List.TakeWhile

/-!
# Links in rendered cards

In the HTML of a rendered card the ids of known cards become links, with a preview of the card behind
them. Only the text between tags is changed, and a preview is text of another card.
-/

namespace BlazeList

/-! ### Tags -/

/-- The first tag: the text before it, the tag, and what is behind it. A tag goes from a `<` to the first
`>` behind it. -/
def findTag (html : List Char) : Option (List Char × List Char × List Char) :=
  let before := html.takeWhile (· ≠ '<')
  match html.dropWhile (· ≠ '<') with
  | [] => none
  | opening :: body =>
      match body.dropWhile (· ≠ '>') with
      | [] => none
      | closing :: after => some (before, opening :: body.takeWhile (· ≠ '>') ++ [closing], after)

theorem not_mem_takeWhile_ne (mark : Char) (text : List Char) : mark ∉ text.takeWhile (· ≠ mark) := by
  intro hmem
  simpa using List.mem_takeWhile_imp hmem

/-- A text up to the first mark, if there is one. -/
theorem eq_of_dropWhile_ne {mark c : Char} {text rest : List Char} (h : text.dropWhile (· ≠ mark) = c :: rest) :
    c = mark ∧ text = text.takeWhile (· ≠ mark) ++ mark :: rest := by
  have hhead := List.head?_dropWhile_not (· ≠ mark) text
  rw [h] at hhead
  obtain rfl : c = mark := by simpa using hhead
  refine ⟨rfl, ?_⟩
  rw [← h]
  exact List.takeWhile_append_dropWhile.symm

theorem not_mem_of_dropWhile_ne {mark : Char} {text : List Char} (h : text.dropWhile (· ≠ mark) = []) :
    mark ∉ text := by
  intro hmem
  simpa using List.dropWhile_eq_nil_iff.mp h mark hmem

theorem findTag_spec {html before tag after : List Char} (h : findTag html = some (before, tag, after)) :
    html = before ++ tag ++ after ∧ '<' ∉ before ∧ ∃ body, tag = '<' :: body ++ ['>'] ∧ '>' ∉ body := by
  rw [findTag] at h
  split at h
  next => cases h
  next opening body hopen =>
    split at h
    next => cases h
    next closing rest hclose =>
      obtain ⟨rfl, hrest⟩ := Prod.mk.inj (Option.some.inj h)
      obtain ⟨rfl, rfl⟩ := Prod.mk.inj hrest
      obtain ⟨rfl, hhtml⟩ := eq_of_dropWhile_ne hopen
      obtain ⟨rfl, hbody⟩ := eq_of_dropWhile_ne hclose
      refine ⟨?_, not_mem_takeWhile_ne '<' html, body.takeWhile (· ≠ '>'), rfl, not_mem_takeWhile_ne '>' body⟩
      rw [List.append_assoc, List.append_assoc, List.cons_append, List.singleton_append, ← hbody]
      exact hhtml

/-- Without a tag there is no `<`, or no `>` behind the first one. -/
theorem findTag_none {html : List Char} (h : findTag html = none) :
    '<' ∉ html ∨ ∃ before body, html = before ++ '<' :: body ∧ '<' ∉ before ∧ '>' ∉ body := by
  rw [findTag] at h
  split at h
  next hopen => exact .inl (not_mem_of_dropWhile_ne hopen)
  next opening body hopen =>
    split at h
    next hclose =>
      obtain ⟨rfl, hhtml⟩ := eq_of_dropWhile_ne hopen
      exact .inr ⟨_, body, hhtml, not_mem_takeWhile_ne '<' html, not_mem_of_dropWhile_ne hclose⟩
    next => cases h

theorem findTag_after_lt {html before tag after : List Char} (h : findTag html = some (before, tag, after)) :
    after.length < html.length := by
  obtain ⟨rfl, -, body, rfl, -⟩ := findTag_spec h
  simp only [List.length_append, List.length_cons]
  omega

def splitTags (html : List Char) : List (List Char × List Char) × List Char :=
  match _h : findTag html with
  | some (before, tag, after) => ((before, tag) :: (splitTags after).1, (splitTags after).2)
  | none => ([], html)
termination_by html.length
decreasing_by
  all_goals exact findTag_after_lt _h

def tagsOf (html : List Char) : List (List Char) := (splitTags html).1.map Prod.snd

/-! ### Links -/

def escapeHtmlText (text : List Char) : List Char :=
  text.flatMap fun ch =>
    if ch = '&' then "&amp;".toList
    else if ch = '<' then "&lt;".toList
    else if ch = '>' then "&gt;".toList
    else if ch = '"' then "&quot;".toList
    else if ch = '\'' then "&#39;".toList
    else [ch]

section

variable (cardIds : Finset Uuid) (cardPreviews : Uuid → Option (List Char)) (blazedIds : Finset Uuid)

def linkifyUuid (uuidText : List Char) : List Char :=
  match parseUuid uuidText with
  | some uuid =>
      if uuid ∈ cardIds then
        let fullId := (Uuid.toString uuid).toList
        let shortId := fullId.take 8
        (if uuid ∈ blazedIds then "<span class=\"card-uuid-link blazed\" data-card-id=\"".toList
          else "<span class=\"card-uuid-link\" data-card-id=\"".toList) ++
          fullId ++ "\">".toList ++ "<span class=\"card-uuid-link-id\">".toList ++ shortId ++
          (if (cardPreviews uuid).isSome then ['…'] else []) ++ "</span>".toList ++
          (match cardPreviews uuid with
            | some preview =>
                " <span class=\"card-uuid-link-preview\">".toList ++ escapeHtmlText preview ++ "</span>".toList
            | none => []) ++
          "</span>".toList
      else uuidText
  | none => uuidText

def linkifySegment (text : List Char) : List Char :=
  ((captures true [] text).1.flatMap fun (gap, uuidText) =>
      gap ++ linkifyUuid cardIds cardPreviews blazedIds uuidText) ++
    (captures true [] text).2

def linkifyCardUuidsWithPreviews (html : List Char) : List Char :=
  if cardIds = ∅ then html
  else
    ((splitTags html).1.flatMap fun (before, tag) =>
        linkifySegment cardIds cardPreviews blazedIds before ++ tag) ++
      linkifySegment cardIds cardPreviews blazedIds (splitTags html).2

end

/-! ### Reading the tags one character at a time -/

structure TagScan where
  tags : List (List Char)
  pending : Option (List Char)

def TagScan.step (scan : TagScan) (c : Char) : TagScan :=
  match scan.pending with
  | none => if c = '<' then { scan with pending := some ['<'] } else scan
  | some text =>
      if c = '>' then { tags := scan.tags ++ [text ++ ['>']], pending := none }
      else { scan with pending := some (text ++ [c]) }

def TagScan.read (scan : TagScan) (text : List Char) : TagScan := text.foldl TagScan.step scan

namespace TagScan

@[simp]
theorem read_append (scan : TagScan) (left right : List Char) :
    scan.read (left ++ right) = (scan.read left).read right :=
  List.foldl_append

@[simp]
theorem read_cons (scan : TagScan) (c : Char) (text : List Char) : scan.read (c :: text) = (scan.step c).read text :=
  rfl

@[simp]
theorem read_nil (scan : TagScan) : scan.read [] = scan := rfl

/-- Outside of a tag a text without `<` is passed over. -/
theorem read_text {scan : TagScan} {text : List Char} (hscan : scan.pending = none) (htext : '<' ∉ text) :
    scan.read text = scan := by
  induction text with
  | nil => rfl
  | cons c text ih =>
      obtain ⟨hc, hrest⟩ := not_or.mp (mt List.mem_cons.mpr htext)
      rw [read_cons, step, hscan]
      dsimp only
      rw [if_neg (Ne.symm hc)]
      exact ih hrest

/-- Pieces that are read alike are read alike one after the other. -/
theorem read_flatMap_congr {β : Type} {f g : β → List Char}
    (h : ∀ (scan : TagScan) (piece : β), scan.read (f piece) = scan.read (g piece)) (pieces : List β)
    (scan : TagScan) : scan.read (pieces.flatMap f) = scan.read (pieces.flatMap g) := by
  induction pieces generalizing scan with
  | nil => rw [List.flatMap_nil, List.flatMap_nil]
  | cons piece pieces ih =>
      rw [List.flatMap_cons, List.flatMap_cons, read_append, read_append, h, ih]

theorem read_body (tags : List (List Char)) (start : List Char) {body : List Char} (hbody : '>' ∉ body) :
    TagScan.read ⟨tags, some start⟩ body = ⟨tags, some (start ++ body)⟩ := by
  induction body generalizing start with
  | nil => rw [read_nil, List.append_nil]
  | cons c body ih =>
      obtain ⟨hc, hrest⟩ := not_or.mp (mt List.mem_cons.mpr hbody)
      rw [read_cons, step]
      dsimp only
      rw [if_neg (Ne.symm hc), ih _ hrest, List.append_assoc, List.singleton_append]

/-- Outside of a tag, a tag is read as one. -/
theorem read_tag {scan : TagScan} {body : List Char} (hscan : scan.pending = none) (hbody : '>' ∉ body) :
    scan.read ('<' :: body ++ ['>']) = ⟨scan.tags ++ ['<' :: body ++ ['>']], none⟩ := by
  obtain ⟨tags, pending⟩ := scan
  obtain rfl : pending = none := hscan
  rw [List.cons_append, read_cons, read_append]
  have hopen : step ⟨tags, none⟩ '<' = ⟨tags, some ['<']⟩ := rfl
  rw [hopen, read_body tags ['<'] hbody]
  rfl

/-- A `>` ends a tag, if there is one. -/
theorem pending_read_close (scan : TagScan) (text : List Char) : (scan.read (text ++ ['>'])).pending = none := by
  rw [read_append, read_cons, read_nil]
  generalize scan.read text = scan
  rw [step]
  cases hpending : scan.pending with
  | none => exact hpending
  | some text => rfl

theorem tags_prefix_step (scan : TagScan) (c : Char) : scan.tags <+: (scan.step c).tags := by
  rw [step]
  cases scan.pending with
  | none =>
      dsimp only
      split
      next => exact List.prefix_rfl
      next => exact List.prefix_rfl
  | some text =>
      dsimp only
      split
      next => exact List.prefix_append _ _
      next => exact List.prefix_rfl

/-- What was read stays. -/
theorem tags_prefix_read (scan : TagScan) (text : List Char) : scan.tags <+: (scan.read text).tags := by
  induction text generalizing scan with
  | nil => exact List.prefix_rfl
  | cons c text ih => exact (scan.tags_prefix_step c).trans (ih _)

end TagScan

/-- Read outside of a tag, the tags of a text are added. -/
theorem tags_read {scan : TagScan} (hscan : scan.pending = none) (html : List Char) :
    (scan.read html).tags = scan.tags ++ tagsOf html := by
  rw [tagsOf]
  fun_induction splitTags html generalizing scan with
  | case1 html before tag after hfound ih =>
      obtain ⟨rfl, hbefore, body, rfl, hbody⟩ := findTag_spec hfound
      rw [TagScan.read_append, TagScan.read_append, TagScan.read_text hscan hbefore, TagScan.read_tag hscan hbody,
        ih rfl, List.map_cons, List.append_assoc, List.singleton_append]
  | case2 html hnone =>
      rw [List.map_nil, List.append_nil]
      rcases findTag_none hnone with htext | ⟨before, body, rfl, hbefore, hbody⟩
      · rw [TagScan.read_text hscan htext]
      · obtain ⟨tags, pending⟩ := scan
        obtain rfl : pending = none := hscan
        have hopen : TagScan.step ⟨tags, none⟩ '<' = ⟨tags, some ['<']⟩ := rfl
        rw [TagScan.read_append, TagScan.read_text rfl hbefore, TagScan.read_cons, hopen,
          TagScan.read_body tags ['<'] hbody]

/-! ### Previews are text -/

theorem not_mem_escapeHtmlText (text : List Char) : '<' ∉ escapeHtmlText text := by
  rw [escapeHtmlText, List.mem_flatMap]
  rintro ⟨ch, -, hmem⟩
  split at hmem
  next => exact absurd hmem (by decide)
  next =>
    split at hmem
    next => exact absurd hmem (by decide)
    next hne =>
      split at hmem
      next => exact absurd hmem (by decide)
      next =>
        split at hmem
        next => exact absurd hmem (by decide)
        next =>
          split at hmem
          next => exact absurd hmem (by decide)
          next => exact hne (List.mem_singleton.mp hmem).symm

theorem pending_read_preview (scan : TagScan) :
    (scan.read " <span class=\"card-uuid-link-preview\">".toList).pending = none := by
  have hclose : " <span class=\"card-uuid-link-preview\">".toList =
      " <span class=\"card-uuid-link-preview\"".toList ++ ['>'] := by decide
  rw [hclose]
  exact TagScan.pending_read_close _ _

theorem pending_read_close_span (scan : TagScan) : (scan.read "</span>".toList).pending = none := by
  have hclose : "</span>".toList = "</span".toList ++ ['>'] := by decide
  rw [hclose]
  exact TagScan.pending_read_close _ _

section

variable {cardIds blazedIds : Finset Uuid} {first second : Uuid → Option (List Char)}
  (hkeys : ∀ uuid, (first uuid).isSome = (second uuid).isSome)

include hkeys

/-- Two previews of the same card are read alike. -/
theorem read_linkifyUuid (scan : TagScan) (uuidText : List Char) :
    scan.read (linkifyUuid cardIds first blazedIds uuidText) =
      scan.read (linkifyUuid cardIds second blazedIds uuidText) := by
  rw [linkifyUuid, linkifyUuid]
  cases parseUuid uuidText with
  | none => dsimp only
  | some uuid =>
      dsimp only
      split
      next =>
        rw [hkeys uuid]
        cases hfirst : first uuid with
        | none =>
            have hsecond : second uuid = none := by
              rw [← Option.not_isSome_iff_eq_none, ← hkeys, hfirst]
              exact Bool.false_ne_true
            rw [hsecond]
        | some preview =>
            obtain ⟨other, hsecond⟩ : ∃ other, second uuid = some other := by
              rw [← Option.isSome_iff_exists, ← hkeys, hfirst]
              rfl
            rw [hsecond]
            simp only [TagScan.read_append]
            rw [TagScan.read_text (pending_read_preview _) (not_mem_escapeHtmlText preview),
              TagScan.read_text (pending_read_preview _) (not_mem_escapeHtmlText other)]
      next => rfl

theorem read_linkifySegment (scan : TagScan) (text : List Char) :
    scan.read (linkifySegment cardIds first blazedIds text) =
      scan.read (linkifySegment cardIds second blazedIds text) := by
  rw [linkifySegment, linkifySegment, TagScan.read_append, TagScan.read_append]
  apply congrArg fun scan : TagScan => scan.read (captures true [] text).2
  apply TagScan.read_flatMap_congr
  intro scan piece
  rw [TagScan.read_append, TagScan.read_append, read_linkifyUuid hkeys]

theorem read_linkifyCardUuids (scan : TagScan) (html : List Char) :
    scan.read (linkifyCardUuidsWithPreviews cardIds first blazedIds html) =
      scan.read (linkifyCardUuidsWithPreviews cardIds second blazedIds html) := by
  rw [linkifyCardUuidsWithPreviews, linkifyCardUuidsWithPreviews]
  split
  next => rfl
  next =>
    rw [TagScan.read_append, TagScan.read_append, read_linkifySegment hkeys]
    apply congrArg fun scan : TagScan => scan.read (linkifySegment cardIds second blazedIds (splitTags html).2)
    apply TagScan.read_flatMap_congr
    intro scan piece
    rw [TagScan.read_append, TagScan.read_append, read_linkifySegment hkeys]

end

/-! ### Tags stay -/

theorem IsSpelling.not_mem {text : List Char} (h : IsSpelling text) : '<' ∉ text := by
  obtain ⟨a, b, c, d, e, rfl, -, -, -, -, -, hall⟩ := h.groups
  intro hmem
  have hdigit : '<' ∈ a ++ b ++ c ++ d ++ e := by simpa using hmem
  exact absurd (hall '<' hdigit) (by decide)

section

variable (cardIds : Finset Uuid) (cardPreviews : Uuid → Option (List Char)) (blazedIds : Finset Uuid)

/-- Outside of a tag, reading an id or the link in its place ends outside of a tag. -/
theorem pending_read_linkifyUuid {scan : TagScan} (hscan : scan.pending = none) {uuidText : List Char}
    (huuid : IsSpelling uuidText) :
    (scan.read (linkifyUuid cardIds cardPreviews blazedIds uuidText)).pending = none := by
  have hplain : (scan.read uuidText).pending = none := by
    rw [TagScan.read_text hscan huuid.not_mem]
    exact hscan
  rw [linkifyUuid]
  cases parseUuid uuidText with
  | none => exact hplain
  | some uuid =>
      dsimp only
      split
      next =>
        rw [TagScan.read_append]
        exact pending_read_close_span _
      next => exact hplain

theorem pending_read_linkifySegment {scan : TagScan} (hscan : scan.pending = none) {text : List Char}
    (htext : '<' ∉ text) :
    (scan.read (linkifySegment cardIds cardPreviews blazedIds text)).pending = none := by
  obtain ⟨hjoin, hspellings⟩ := captures_spec true [] text
  rw [List.nil_append] at hjoin
  rw [← hjoin, List.mem_append, not_or, List.mem_flatMap] at htext
  rw [linkifySegment, TagScan.read_append]
  have hrun (pieces : List (List Char × List Char)) (hpieces : ∀ piece ∈ pieces, '<' ∉ piece.1 ∧ IsSpelling piece.2) :
      ∀ scan : TagScan, scan.pending = none →
        (scan.read (pieces.flatMap fun (gap, uuidText) =>
          gap ++ linkifyUuid cardIds cardPreviews blazedIds uuidText)).pending = none := by
    induction pieces with
    | nil => exact fun scan hscan => hscan
    | cons piece pieces ih =>
        intro scan hscan
        obtain ⟨⟨hgap, huuid⟩, hrest⟩ := List.forall_mem_cons.mp hpieces
        rw [List.flatMap_cons, TagScan.read_append, TagScan.read_append, TagScan.read_text hscan hgap]
        exact ih hrest _ (pending_read_linkifyUuid cardIds cardPreviews blazedIds hscan huuid)
  have hpieces : ∀ piece ∈ (captures true [] text).1, '<' ∉ piece.1 ∧ IsSpelling piece.2 := by
    intro piece hpiece
    refine ⟨fun hmem => htext.1 ⟨piece, hpiece, ?_⟩, hspellings piece hpiece⟩
    exact List.mem_append_left _ hmem
  have hend := hrun _ hpieces scan hscan
  rw [TagScan.read_text hend htext.2]
  exact hend

theorem splitTags_spec (html : List Char) :
    ((splitTags html).1.flatMap fun (before, tag) => before ++ tag) ++ (splitTags html).2 = html ∧
      ∀ piece ∈ (splitTags html).1, '<' ∉ piece.1 ∧ ∃ body, piece.2 = '<' :: body ++ ['>'] ∧ '>' ∉ body := by
  fun_induction splitTags html with
  | case1 html before tag after hfound ih =>
      obtain ⟨rfl, hbefore, htag⟩ := findTag_spec hfound
      refine ⟨?_, List.forall_mem_cons.mpr ⟨⟨hbefore, htag⟩, ih.2⟩⟩
      rw [List.flatMap_cons, List.append_assoc, ih.1]
  | case2 html => exact ⟨rfl, fun piece hpiece => absurd hpiece List.not_mem_nil⟩

/-- The tags of the input are among those of the output, in the same order. -/
theorem sublist_tags_read (scan : TagScan) (hscan : scan.pending = none) (html : List Char) :
    (scan.tags ++ tagsOf html).Sublist
      (scan.read (linkifyCardUuidsWithPreviews cardIds cardPreviews blazedIds html)).tags := by
  rw [linkifyCardUuidsWithPreviews]
  split
  next => rw [tags_read hscan]
  next =>
    have hrun (pieces : List (List Char × List Char))
        (hpieces : ∀ piece ∈ pieces, '<' ∉ piece.1 ∧ ∃ body, piece.2 = '<' :: body ++ ['>'] ∧ '>' ∉ body) :
        ∀ scan : TagScan, scan.pending = none → (scan.tags ++ pieces.map Prod.snd).Sublist
          (scan.read (pieces.flatMap fun (before, tag) =>
            linkifySegment cardIds cardPreviews blazedIds before ++ tag)).tags := by
      induction pieces with
      | nil =>
          intro scan _
          rw [List.map_nil, List.append_nil]
          exact List.Sublist.refl _
      | cons piece pieces ih =>
          intro scan hscan
          obtain ⟨⟨hbefore, body, htag, hbody⟩, hrest⟩ := List.forall_mem_cons.mp hpieces
          have hsegment := pending_read_linkifySegment cardIds cardPreviews blazedIds hscan hbefore
          have hgrow := (scan.tags_prefix_read (linkifySegment cardIds cardPreviews blazedIds piece.1)).sublist
          rw [List.flatMap_cons, TagScan.read_append, TagScan.read_append, List.map_cons, htag,
            TagScan.read_tag hsegment hbody, List.append_cons]
          refine List.Sublist.trans ?_ (ih hrest _ rfl)
          exact (hgrow.append_right _).append_right _
    rw [TagScan.read_append]
    exact (hrun _ (splitTags_spec html).2 scan hscan).trans (TagScan.tags_prefix_read _ _).sublist

/-- The output is the input with other text between the same tags. -/
theorem exists_linkify_eq (html : List Char) :
    ∃ (texts : List (List Char)) (last : List Char), texts.length = (tagsOf html).length ∧
      linkifyCardUuidsWithPreviews cardIds cardPreviews blazedIds html =
        (texts.zipWith (· ++ ·) (tagsOf html)).flatten ++ last := by
  have hjoin (text : List Char → List Char) (pieces : List (List Char × List Char)) :
      (pieces.flatMap fun (before, tag) => text before ++ tag) =
        ((pieces.map fun (before, _) => text before).zipWith (· ++ ·) (pieces.map Prod.snd)).flatten := by
    induction pieces with
    | nil => rfl
    | cons piece pieces ih =>
        rw [List.flatMap_cons, ih]
        rfl
  rw [linkifyCardUuidsWithPreviews, tagsOf]
  split
  next =>
    refine ⟨(splitTags html).1.map Prod.fst, (splitTags html).2, by simp, ?_⟩
    have hhtml := (splitTags_spec html).1
    have hpieces := hjoin id (splitTags html).1
    dsimp only [id] at hpieces
    rw [hpieces] at hhtml
    exact hhtml.symm
  next =>
    exact ⟨(splitTags html).1.map fun (before, _) => linkifySegment cardIds cardPreviews blazedIds before, _, by simp,
      by rw [hjoin]⟩

end

/-- Whatever the previews say, the output has the same tags, and those of the input are among them, in their
places. -/
theorem linkify_tags (html : List Char) (cardIds blazedIds : Finset Uuid) {first second : Uuid → Option (List Char)}
    (hkeys : ∀ uuid, (first uuid).isSome = (second uuid).isSome) :
    tagsOf (linkifyCardUuidsWithPreviews cardIds first blazedIds html) =
        tagsOf (linkifyCardUuidsWithPreviews cardIds second blazedIds html) ∧
      (tagsOf html).Sublist (tagsOf (linkifyCardUuidsWithPreviews cardIds first blazedIds html)) ∧
      ∃ (texts : List (List Char)) (last : List Char), texts.length = (tagsOf html).length ∧
        linkifyCardUuidsWithPreviews cardIds first blazedIds html =
          (texts.zipWith (· ++ ·) (tagsOf html)).flatten ++ last := by
  have htags (text : List Char) : tagsOf text = (TagScan.read ⟨[], none⟩ text).tags := by
    rw [tags_read rfl, List.nil_append]
  refine ⟨?_, ?_, exists_linkify_eq cardIds first blazedIds html⟩
  · rw [htags, htags, read_linkifyCardUuids hkeys]
  · rw [htags (linkifyCardUuidsWithPreviews cardIds first blazedIds html)]
    exact sublist_tags_read cardIds first blazedIds ⟨[], none⟩ rfl html

def scriptPreview (uuid : Uuid) : Option (List Char) := if uuid = 1 then some "<script>".toList else none

def plainPreview (uuid : Uuid) : Option (List Char) := if uuid = 1 then some "note".toList else none

theorem linkify_tags_script :
    tagsOf (linkifyCardUuidsWithPreviews {1} scriptPreview ∅ "<p>00000000-0000-0000-0000-000000000001</p>".toList) =
      tagsOf (linkifyCardUuidsWithPreviews {1} plainPreview ∅ "<p>00000000-0000-0000-0000-000000000001</p>".toList) :=
  have hkeys : ∀ uuid, (scriptPreview uuid).isSome = (plainPreview uuid).isSome := by
    intro uuid
    rw [scriptPreview, plainPreview]
    split
    next => rfl
    next => rfl
  (linkify_tags _ {1} ∅ hkeys).1

end BlazeList
