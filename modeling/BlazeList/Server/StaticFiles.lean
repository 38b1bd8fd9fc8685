import Mathlib.Data.List.TakeWhile
import BlazeList.Lib.FileTree
import BlazeList.Lib.Words

/-!
# The web server

Beside the protocol the server answers single requests over HTTPS: for the hash of its certificate, for the
defaults of the clients, and for the files of the web client. A path that is no file gets the start page.
-/

namespace BlazeList

/-- The file system. A file that cannot be read has no content. -/
abbrev StaticTree (δ : Type) := FileTree δ (List Char) (Option (List UInt8))

/-! ### The request -/

def firstLine (text : List Char) : List Char :=
  let line := text.takeWhile (· ≠ '\n')
  if line ≠ text ∧ line.getLast? = some '\r' then line.dropLast else line

def parseRequestPath (requestLine : List Char) : Option (List Char) :=
  match Words.splitWhitespace requestLine with
  | method :: rawPath :: _ =>
      if method = ['G', 'E', 'T'] then some (rawPath.takeWhile (· ≠ '?')) else none
  | _ => none

/-! ### The response -/

def textBytes (text : String) : List UInt8 := text.toList.flatMap String.utf8EncodeChar

def headBytes (lines : List String) : List UInt8 :=
  lines.flatMap (fun line => textBytes line ++ [13, 10]) ++ [13, 10]

/-- What follows the last dot of a name, unless nothing precedes that dot. -/
def fileExtension (name : List Char) : Option (List Char) :=
  let after := (name.reverse.takeWhile (· ≠ '.')).reverse
  if after.length + 1 < name.length then some after else none

def contentTypeFor (segments : List (List Char)) : String :=
  match ((segments.getLast?).bind fileExtension).map String.ofList with
  | some "html" => "text/html; charset=utf-8"
  | some "js" => "application/javascript"
  | some "wasm" => "application/wasm"
  | some "css" => "text/css; charset=utf-8"
  | some "json" => "application/json"
  | some "ico" => "image/x-icon"
  | some "png" => "image/png"
  | some "svg" => "image/svg+xml"
  | some "webmanifest" => "application/manifest+json"
  | _ => "application/octet-stream"

def buildFileResponse (segments : List (List Char)) (body : List UInt8) : List UInt8 :=
  headBytes
    ["HTTP/1.1 200 OK",
      "Content-Type: " ++ contentTypeFor segments,
      "Content-Length: " ++ toString body.length,
      "Connection: close"] ++ body

def buildCorsResponse (contentType body : String) : List UInt8 :=
  headBytes
    ["HTTP/1.1 200 OK",
      "Content-Type: " ++ contentType,
      "Content-Length: " ++ toString (textBytes body).length,
      "Access-Control-Allow-Origin: *",
      "Access-Control-Allow-Methods: GET, OPTIONS",
      "Access-Control-Allow-Headers: *",
      "Cache-Control: no-store",
      "Connection: close"] ++ textBytes body

def buildErrorResponse (status : Nat) (reason : String) : List UInt8 :=
  let body := toString status ++ " " ++ reason
  headBytes
    ["HTTP/1.1 " ++ toString status ++ " " ++ reason,
      "Content-Type: text/plain",
      "Content-Length: " ++ toString (textBytes body).length,
      "Connection: close"] ++ textBytes body

/-! ### The files -/

variable {δ : Type}

def indexHtml : List Char := "index.html".toList

def pathStep (segment : List Char) : FileTree.Step (List Char) :=
  if segment = [] ∨ segment = ['.'] then .stay else if segment = ['.', '.'] then .up else .down segment

/-- A path that leads to no file gets the start page. -/
def serveStaticFile (tree : StaticTree δ) (staticDir : Option δ) (requestPath : List Char) : List UInt8 :=
  match staticDir with
  | none => buildErrorResponse 500 "Internal Server Error"
  | some dir =>
      let segments := (requestPath.dropWhile (· = '/')).splitOn '/'
      let traversal := segments.any (· = ['.', '.'])
      let candidate := if traversal then none else tree.readFile dir (segments.map pathStep)
      let served := match candidate with
        | some content => some (segments, content)
        | none => (tree.readFile dir [.down indexHtml]).map fun content => ([indexHtml], content)
      match served with
      | some (path, some content) => buildFileResponse path content
      | _ => buildErrorResponse 404 "Not Found"

def handleConnection (tree : StaticTree δ) (staticDir : Option δ) (certHashHex configJson : String)
    (request : List Char) : List UInt8 :=
  match parseRequestPath (firstLine request) with
  | none => buildErrorResponse 400 "Bad Request"
  | some path =>
      if path = "/cert-hash".toList then buildCorsResponse "text/plain" certHashHex
      else if path = "/config".toList then buildCorsResponse "application/json" configJson
      else serveStaticFile tree staticDir path

/-- The plain server for the hash takes every request that is not for the configuration as one for the hash. -/
def handleCertHashConnection (certHashHex configJson : String) (request : List Char) : List UInt8 :=
  match parseRequestPath (firstLine request) with
  | some path =>
      if path = "/config".toList then buildCorsResponse "application/json" configJson
      else buildCorsResponse "text/plain" certHashHex
  | none => buildCorsResponse "text/plain" certHashHex

/-! ### Nothing outside the static directory -/

theorem pathStep_ne_up {segment : List Char} (h : segment ≠ ['.', '.']) : pathStep segment ≠ .up := by
  unfold pathStep
  split <;> exact nofun

variable {tree other : StaticTree δ} {dir : δ} {content : List UInt8} {names : List (List Char)}

theorem serveStaticFile_confined (hagree : FileTree.AgreeBelow tree other dir) (path : List Char) :
    serveStaticFile tree (some dir) path = serveStaticFile other (some dir) path := by
  have hindex : tree.readFile dir [.down indexHtml] = other.readFile dir [.down indexHtml] :=
    hagree.readFile (by simp)
  unfold serveStaticFile
  simp only [hindex]
  cases htraversal : ((path.dropWhile (· = '/')).splitOn '/').any (· = ['.', '.']) with
  | true => rfl
  | false =>
      have hup : ∀ step ∈ ((path.dropWhile (· = '/')).splitOn '/').map pathStep, step ≠ .up := by
        intro step hstep
        obtain ⟨segment, hsegment, rfl⟩ := List.mem_map.mp hstep
        apply pathStep_ne_up
        intro hdots
        exact absurd (List.any_eq_false.mp htraversal segment hsegment) (by simp [hdots])
      simp only [Bool.false_eq_true, if_false, hagree.readFile hup]

/-- Whatever is requested, the answer depends on nothing but what the names below the static directory lead to:
not on its parent, and not on any other directory. -/
theorem handleConnection_confined (hagree : FileTree.AgreeBelow tree other dir) (certHashHex configJson : String)
    (request : List Char) :
    handleConnection tree (some dir) certHashHex configJson request =
      handleConnection other (some dir) certHashHex configJson request := by
  unfold handleConnection
  cases parseRequestPath (firstLine request) with
  | none => rfl
  | some path => simp only [serveStaticFile_confined hagree path]

def siteTree (secret : List UInt8) : StaticTree Nat where
  entry := fun dir name =>
    if dir = 0 ∧ name = indexHtml then some (.file (some [0x3C]))
    else if dir = 0 ∧ name = ['a'] then some (.dir 2)
    else if dir = 2 ∧ name = ['m'] then some (.file (some [0x3B]))
    else if dir = 1 ∧ name = ['s'] then some (.file (some secret))
    else none
  parent := fun _ => 1

theorem agreeBelow_siteTree (secret secret' : List UInt8) :
    FileTree.AgreeBelow (siteTree secret) (siteTree secret') 0 := by
  intro sub hbelow
  have hsub : sub ≠ 1 := by
    obtain rfl | ⟨mid, -, name, hentry⟩ := Relation.ReflTransGen.cases_tail hbelow
    · decide
    · rintro rfl
      dsimp only [siteTree] at hentry
      split_ifs at hentry <;> simp at hentry
  funext name
  unfold siteTree
  simp only [hsub, false_and, if_false]

theorem handleConnection_confined_secret :
    FileTree.AgreeBelow (siteTree [1]) (siteTree [2]) 0 ∧
      handleConnection (siteTree [1]) (some 0) "" "" "GET /../s HTTP/1.1".toList =
        handleConnection (siteTree [2]) (some 0) "" "" "GET /../s HTTP/1.1".toList :=
  ⟨agreeBelow_siteTree [1] [2], handleConnection_confined (agreeBelow_siteTree [1] [2]) "" "" _⟩

/-! ### Every file under its own path -/

/-- A name that a request can spell: paths are not decoded. -/
structure PlainName (name : List Char) : Prop where
  ne_nil : name ≠ []
  ne_dot : name ≠ ['.']
  ne_dots : name ≠ ['.', '.']
  plain : ∀ c ∈ name, c ≠ '/' ∧ c ≠ '?' ∧ Words.isWhitespace c = false

structure IsQuery (query : List Char) : Prop where
  mark : query = [] ∨ ∃ more, query = '?' :: more
  plain : ∀ c ∈ query, Words.isWhitespace c = false

def ownPath (names : List (List Char)) : List Char := names.flatMap ('/' :: ·)

theorem pathStep_of_plainName {name : List Char} (h : PlainName name) : pathStep name = .down name := by
  simp [pathStep, h.ne_nil, h.ne_dot, h.ne_dots]

theorem plain_ownPath (hplain : ∀ name ∈ names, PlainName name) {c : Char} (hc : c ∈ ownPath names) :
    c ≠ '?' ∧ Words.isWhitespace c = false := by
  obtain ⟨name, hname, hmem⟩ := List.mem_flatMap.mp hc
  obtain rfl | hmem := List.mem_cons.mp hmem
  · exact ⟨by decide, by decide⟩
  · exact ((hplain name hname).plain c hmem).2

theorem splitOn_ownPath {name : List Char} (hname : '/' ∉ name) (hnames : ∀ name ∈ names, '/' ∉ name) :
    (name ++ ownPath names).splitOn '/' = name :: names := by
  induction names generalizing name with
  | nil => simpa [ownPath] using List.splitOn_eq_singleton hname
  | cons next rest ih =>
      calc
        (name ++ ownPath (next :: rest)).splitOn '/' = (name ++ '/' :: (next ++ ownPath rest)).splitOn '/' := rfl
        _ = name :: (next ++ ownPath rest).splitOn '/' := List.splitOn_append_cons_self_of_not_mem hname _
        _ = name :: next :: rest := by
          rw [ih (hnames next List.mem_cons_self) fun other hother => hnames other (List.mem_cons_of_mem _ hother)]

theorem segments_ownPath (hne : names ≠ []) (hplain : ∀ name ∈ names, PlainName name) :
    ((ownPath names).dropWhile (· = '/')).splitOn '/' = names := by
  cases names with
  | nil => exact absurd rfl hne
  | cons name rest =>
      have hslash : ∀ name' ∈ name :: rest, '/' ∉ name' := fun name' hname' hmem =>
        ((hplain name' hname').plain '/' hmem).1 rfl
      have hdrop : (ownPath (name :: rest)).dropWhile (· = '/') = name ++ ownPath rest := by
        change ('/' :: (name ++ ownPath rest)).dropWhile (· = '/') = _
        rw [List.dropWhile_cons_of_pos (by decide)]
        cases hname : name with
        | nil => exact absurd hname (hplain name List.mem_cons_self).ne_nil
        | cons c cs =>
            have hc : c ≠ '/' := ((hplain name List.mem_cons_self).plain c (hname ▸ List.mem_cons_self)).1
            exact List.dropWhile_cons_of_neg (by simpa using hc)
      rw [hdrop]
      exact splitOn_ownPath (hslash name List.mem_cons_self) fun other hother =>
        hslash other (List.mem_cons_of_mem _ hother)

/-- The first line of a request that starts with words has the same words before a blank. -/
theorem exists_firstLine {front : List Char} (hfront : '\n' ∉ front) (rest : List Char) :
    ∃ tail, firstLine (front ++ ' ' :: rest) = front ++ ' ' :: tail := by
  have hline : (front ++ ' ' :: rest).takeWhile (· ≠ '\n') = front ++ ' ' :: rest.takeWhile (· ≠ '\n') := by
    rw [List.takeWhile_append_of_pos, List.takeWhile_cons_of_pos (by decide)]
    intro c hc
    simpa using fun heq : c = '\n' => hfront (heq ▸ hc)
  unfold firstLine
  simp only [hline]
  split
  · rename_i hreturn
    cases hrest : rest.takeWhile (· ≠ '\n') with
    | nil =>
        rw [hrest, List.getLast?_append_cons] at hreturn
        exact absurd hreturn.2 (by decide)
    | cons c cs => exact ⟨(c :: cs).dropLast, by rw [List.dropLast_append_cons]; rfl⟩
  · exact ⟨_, rfl⟩

theorem parseRequestPath_get {path query tail : List Char} (hne : path ≠ [])
    (hpath : ∀ c ∈ path, c ≠ '?' ∧ Words.isWhitespace c = false) (hquery : IsQuery query) :
    parseRequestPath (['G', 'E', 'T'] ++ ' ' :: ((path ++ query) ++ ' ' :: tail)) = some path := by
  have hblank : Words.isWhitespace ' ' = true := by decide
  have hget : ∀ c ∈ ['G', 'E', 'T'], Words.isWhitespace c = false := by
    simp only [List.mem_cons, List.not_mem_nil, or_false, forall_eq_or_imp, forall_eq]
    exact ⟨by decide, by decide, by decide⟩
  have htarget : ∀ c ∈ path ++ query, Words.isWhitespace c = false := by
    intro c hc
    obtain hc | hc := List.mem_append.mp hc
    · exact (hpath c hc).2
    · exact hquery.plain c hc
  have hwords : Words.splitWhitespace (['G', 'E', 'T'] ++ ' ' :: ((path ++ query) ++ ' ' :: tail)) =
      ['G', 'E', 'T'] :: (path ++ query) :: Words.splitWhitespace tail := by
    rw [Words.splitWhitespace_cons (List.cons_ne_nil _ _) hget hblank,
      Words.splitWhitespace_cons (List.append_ne_nil_of_left_ne_nil hne _) htarget hblank]
  have hcut : (path ++ query).takeWhile (· ≠ '?') = path := by
    rw [List.takeWhile_append_of_pos fun c hc => by simpa using (hpath c hc).1]
    obtain rfl | ⟨more, rfl⟩ := hquery.mark
    · exact List.append_nil path
    · rw [List.takeWhile_cons_of_neg (by decide), List.append_nil]
  rw [parseRequestPath, hwords]
  simp only [if_true, hcut]

theorem parseRequestPath_ownPath (hne : names ≠ []) (hplain : ∀ name ∈ names, PlainName name)
    {query : List Char} (hquery : IsQuery query) (rest : List Char) :
    parseRequestPath (firstLine (['G', 'E', 'T'] ++ ' ' :: ((ownPath names ++ query) ++ ' ' :: rest))) =
      some (ownPath names) := by
  have hown : ownPath names ≠ [] := by
    cases names with
    | nil => exact absurd rfl hne
    | cons name rest => exact List.cons_ne_nil _ _
  have hfront : '\n' ∉ ['G', 'E', 'T'] ++ ' ' :: (ownPath names ++ query) := by
    have hbreak : Words.isWhitespace '\n' ≠ false := by decide
    intro hmem
    obtain hmem | hmem := List.mem_append.mp hmem
    · exact absurd hmem (by decide)
    · obtain heq | hmem := List.mem_cons.mp hmem
      · exact absurd heq (by decide)
      · obtain hmem | hmem := List.mem_append.mp hmem
        · exact hbreak (plain_ownPath hplain hmem).2
        · exact hbreak (hquery.plain _ hmem)
  obtain ⟨tail, htail⟩ := exists_firstLine hfront rest
  have hrequest : ['G', 'E', 'T'] ++ ' ' :: ((ownPath names ++ query) ++ ' ' :: rest) =
      (['G', 'E', 'T'] ++ ' ' :: (ownPath names ++ query)) ++ ' ' :: rest := rfl
  rw [hrequest, htail]
  exact parseRequestPath_get hown (fun c hc => plain_ownPath hplain hc) hquery

/-- Every file below the static directory is served under its own path, if a request can spell its names. -/
theorem handleConnection_ownPath (hne : names ≠ []) (hplain : ∀ name ∈ names, PlainName name)
    (hreserved : ownPath names ≠ "/cert-hash".toList ∧ ownPath names ≠ "/config".toList)
    (hfile : tree.readFile dir (names.map .down) = some (some content)) (certHashHex configJson : String)
    {query : List Char} (hquery : IsQuery query) (rest : List Char) :
    handleConnection tree (some dir) certHashHex configJson
      (['G', 'E', 'T'] ++ ' ' :: ((ownPath names ++ query) ++ ' ' :: rest)) = buildFileResponse names content := by
  have hsteps : names.map pathStep = names.map .down :=
    List.map_congr_left fun name hname => pathStep_of_plainName (hplain name hname)
  have htraversal : names.any (· = ['.', '.']) = false := by
    rw [List.any_eq_false]
    intro name hname
    simpa using (hplain name hname).ne_dots
  rw [handleConnection, parseRequestPath_ownPath hne hplain hquery rest]
  simp only [if_neg hreserved.1, if_neg hreserved.2]
  unfold serveStaticFile
  simp only [segments_ownPath hne hplain, htraversal, hsteps, hfile, Bool.false_eq_true, if_false]

theorem handleConnection_ownPath_script :
    handleConnection (siteTree []) (some 0) "" ""
      (['G', 'E', 'T'] ++ ' ' :: ((ownPath [['a'], ['m']] ++ ['?', 'v']) ++ ' ' :: "HTTP/1.1\r\n".toList)) =
      buildFileResponse [['a'], ['m']] [0x3B] := by
  have hquery : IsQuery ['?', 'v'] :=
    ⟨.inr ⟨_, rfl⟩, List.forall_mem_cons.mpr ⟨by decide, List.forall_mem_singleton.mpr (by decide)⟩⟩
  refine handleConnection_ownPath (by decide) ?_ (by decide) (by decide) "" "" hquery _
  intro name hname
  obtain rfl | rfl : name = ['a'] ∨ name = ['m'] := by simpa using hname
  all_goals
    refine ⟨by decide, by decide, by decide, fun c hc => ?_⟩
    obtain rfl := List.mem_singleton.mp hc
    exact ⟨by decide, by decide, by decide⟩

/-! ### What a client reads -/

def splitResponse : List UInt8 → Option (List UInt8 × List UInt8)
  | [] => none
  | byte :: rest =>
      if [13, 10, 13, 10].isPrefixOf (byte :: rest) then some ([], rest.drop 3)
      else (splitResponse rest).map fun found => (byte :: found.1, found.2)

/-- The lines of a head and a body whose length is in one of them are what a client reads. -/
def Framed (response : List UInt8) : Prop :=
  ∃ lines head body, splitResponse response = some (head, body) ∧ head ++ [13, 10, 13, 10] = headBytes lines ∧
    "Content-Length: " ++ toString body.length ∈ lines

def isHeadLine (line : String) : Bool := line ≠ "" && line.toList.all fun c => c.toNat < 0x80 && c ≠ '\r'

theorem utf8EncodeChar_ascii {c : Char} (h : c.toNat < 0x80) : String.utf8EncodeChar c = [UInt8.ofNat c.toNat] := by
  have hle : c.val.toNat ≤ 0x7F := Nat.le_of_lt_succ h
  unfold String.utf8EncodeChar
  exact if_pos hle

theorem return_not_mem {line : String} (h : isHeadLine line = true) : (13 : UInt8) ∉ textBytes line := by
  simp only [isHeadLine, Bool.and_eq_true, List.all_eq_true, decide_eq_true_eq] at h
  intro hmem
  obtain ⟨c, hc, hbyte⟩ := List.mem_flatMap.mp hmem
  obtain ⟨hascii, hne⟩ := h.2 c hc
  rw [utf8EncodeChar_ascii hascii, List.mem_singleton] at hbyte
  have hnat : 13 = c.toNat := by
    have hval := congrArg UInt8.toNat hbyte
    rw [UInt8.toNat_ofNat_of_lt' (Nat.lt_trans hascii (by decide))] at hval
    exact hval
  exact hne (Char.toNat_inj.mp hnat.symm)

theorem textBytes_ne_nil {line : String} (h : isHeadLine line = true) : textBytes line ≠ [] := by
  simp only [isHeadLine, Bool.and_eq_true, decide_eq_true_eq] at h
  intro hnil
  apply h.1
  rw [← String.toList_eq_nil_iff]
  cases hchars : line.toList with
  | nil => rfl
  | cons c cs =>
      rw [textBytes, hchars, List.flatMap_cons, List.append_eq_nil_iff] at hnil
      exact absurd hnil.1 String.utf8EncodeChar_ne_nil

theorem splitResponse_line {line : List UInt8} (h : 13 ∉ line) (rest : List UInt8) :
    splitResponse (line ++ rest) = (splitResponse rest).map fun found => (line ++ found.1, found.2) := by
  induction line with
  | nil => simp
  | cons byte line ih =>
      have hbyte : ¬ [13, 10, 13, 10].isPrefixOf (byte :: (line ++ rest)) = true := by
        have hne : (13 == byte) = false := by
          simpa using fun heq : 13 = byte => h (heq ▸ List.mem_cons_self)
        simp [List.isPrefixOf, hne]
      rw [List.cons_append, splitResponse, if_neg hbyte, ih fun hmem => h (List.mem_cons_of_mem _ hmem),
        Option.map_map]
      rfl

theorem splitResponse_break {byte : UInt8} (h : byte ≠ 13) (rest : List UInt8) :
    splitResponse (13 :: 10 :: byte :: rest) =
      (splitResponse (byte :: rest)).map fun found => (13 :: 10 :: found.1, found.2) := by
  have hne : (13 == byte) = false := by simpa using Ne.symm h
  rw [splitResponse, if_neg (by simp [List.isPrefixOf, hne]), splitResponse, if_neg (by simp [List.isPrefixOf]),
    Option.map_map]
  rfl

theorem exists_headBytes_cons {line : String} (h : isHeadLine line = true) (rest : List String) (body : List UInt8) :
    ∃ byte more, byte ≠ 13 ∧ headBytes (line :: rest) ++ body = byte :: more := by
  obtain ⟨byte, bytes, hbytes⟩ := List.exists_cons_of_ne_nil (textBytes_ne_nil h)
  refine ⟨byte, bytes ++ [13, 10] ++ (headBytes rest ++ body), ?_, by simp [headBytes, hbytes]⟩
  rintro rfl
  exact return_not_mem h (hbytes ▸ List.mem_cons_self)

theorem splitResponse_headBytes {lines : List String} (hne : lines ≠ []) (hlines : lines.all isHeadLine = true)
    (body : List UInt8) :
    ∃ head, splitResponse (headBytes lines ++ body) = some (head, body) ∧
      head ++ [13, 10, 13, 10] = headBytes lines := by
  induction lines with
  | nil => exact absurd rfl hne
  | cons line rest ih =>
      rw [List.all_cons, Bool.and_eq_true] at hlines
      have hreturn := return_not_mem hlines.1
      cases rest with
      | nil =>
          refine ⟨textBytes line, ?_, by simp [headBytes]⟩
          have hbytes : headBytes [line] ++ body = textBytes line ++ (13 :: 10 :: 13 :: 10 :: body) := by
            simp [headBytes]
          rw [hbytes, splitResponse_line hreturn]
          simp [splitResponse, List.isPrefixOf]
      | cons next rest =>
          obtain ⟨head, hsplit, hhead⟩ := ih (List.cons_ne_nil _ _) hlines.2
          have hnext : isHeadLine next = true := by
            have hall := hlines.2
            rw [List.all_cons, Bool.and_eq_true] at hall
            exact hall.1
          obtain ⟨byte, more, hbyte, hmore⟩ := exists_headBytes_cons hnext rest body
          have hsplit' : headBytes (line :: next :: rest) ++ body = textBytes line ++ (13 :: 10 :: byte :: more) := by
            rw [← hmore]
            simp [headBytes]
          refine ⟨textBytes line ++ (13 :: 10 :: head), ?_, ?_⟩
          · rw [hsplit', splitResponse_line hreturn, splitResponse_break hbyte, ← hmore, hsplit]
            rfl
          · simpa [headBytes] using hhead

theorem isHeadLine_length (n : Nat) : isHeadLine ("Content-Length: " ++ toString n) = true := by
  have hdigits : (toString n).toList.all (fun c => c.toNat < 0x80 && c ≠ '\r') = true := by
    rw [List.all_eq_true]
    intro c hc
    have hc' : c ∈ Nat.toDigits 10 n := by simpa using hc
    have hdigit : c.isDigit := Nat.isDigit_of_mem_toDigits (by decide) (by decide) hc'
    have hle : c.toNat ≤ 57 := (Char.isDigit_iff_toNat.mp hdigit).2
    have hge : 48 ≤ c.toNat := (Char.isDigit_iff_toNat.mp hdigit).1
    have hne : c ≠ '\r' := by
      rintro rfl
      exact absurd hge (by decide)
    simp [hne, Nat.lt_of_le_of_lt hle]
  rw [isHeadLine, String.toList_append, List.all_append, hdigits]
  simp only [Bool.and_true, Bool.and_eq_true]
  exact ⟨by simp [String.append_eq_empty_iff], by decide⟩

theorem framed_of_lines {lines : List String} {body : List UInt8} (hlines : lines.all isHeadLine = true)
    (hlength : "Content-Length: " ++ toString body.length ∈ lines) : Framed (headBytes lines ++ body) := by
  obtain ⟨head, hsplit, hhead⟩ := splitResponse_headBytes (List.ne_nil_of_mem hlength) hlines body
  exact ⟨lines, head, body, hsplit, hhead, hlength⟩

theorem isHeadLine_contentType (segments : List (List Char)) :
    isHeadLine ("Content-Type: " ++ contentTypeFor segments) = true := by
  unfold contentTypeFor
  split <;> decide +kernel

theorem framed_buildFileResponse (segments : List (List Char)) (body : List UInt8) :
    Framed (buildFileResponse segments body) := by
  refine framed_of_lines ?_ (by simp)
  simp only [List.all_cons, List.all_nil, isHeadLine_length, isHeadLine_contentType, Bool.and_true, Bool.true_and]
  decide +kernel

theorem framed_buildCorsResponse {contentType : String} (h : isHeadLine ("Content-Type: " ++ contentType) = true)
    (body : String) : Framed (buildCorsResponse contentType body) := by
  refine framed_of_lines ?_ (by simp)
  simp only [List.all_cons, List.all_nil, isHeadLine_length, h, Bool.and_true, Bool.true_and]
  decide +kernel

theorem framed_buildErrorResponse {status : Nat} {reason : String}
    (h : isHeadLine ("HTTP/1.1 " ++ toString status ++ " " ++ reason) = true) :
    Framed (buildErrorResponse status reason) := by
  refine framed_of_lines ?_ (by simp)
  simp only [List.all_cons, List.all_nil, isHeadLine_length, h, Bool.and_true, Bool.true_and]
  decide +kernel

theorem framed_serveStaticFile (tree : StaticTree δ) (staticDir : Option δ) (path : List Char) :
    Framed (serveStaticFile tree staticDir path) := by
  unfold serveStaticFile
  cases staticDir with
  | none => exact framed_buildErrorResponse (by decide +kernel)
  | some dir =>
      simp only
      split
      · exact framed_buildFileResponse _ _
      · exact framed_buildErrorResponse (by decide +kernel)

/-- Whatever is requested, both servers answer with a head and with a body of the length that the head gives. -/
theorem responses_framed (tree : StaticTree δ) (staticDir : Option δ) (certHashHex configJson : String)
    (request : List Char) :
    Framed (handleConnection tree staticDir certHashHex configJson request) ∧
      Framed (handleCertHashConnection certHashHex configJson request) := by
  have hhash : Framed (buildCorsResponse "text/plain" certHashHex) :=
    framed_buildCorsResponse (by decide +kernel) certHashHex
  have hconfig : Framed (buildCorsResponse "application/json" configJson) :=
    framed_buildCorsResponse (by decide +kernel) configJson
  constructor
  · unfold handleConnection
    split
    · exact framed_buildErrorResponse (by decide +kernel)
    · split
      · exact hhash
      · split
        · exact hconfig
        · exact framed_serveStaticFile tree staticDir _
  · unfold handleCertHashConnection
    split
    · split
      · exact hconfig
      · exact hhash
    · exact hhash

end BlazeList
