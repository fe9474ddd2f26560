import QueryDoc.Proofs.Batch.Found
import QueryDoc.Proofs.Document.RoundTrip
import QueryDoc.Proofs.Json.Shape
import QueryDoc.Proofs.Text.Lines

/-! What a batch leaves behind. Every file that holds a document is written, whatever becomes of the other
files, and every file that does not is counted. -/

namespace QueryDoc

namespace FileSystem

/-- What a file adds to the text that is written: nothing if it cannot be read. -/
inductive Leaves (system : FileSystem) (style : Style) (headed : Bool) (path : Path) :
    Option String → Prop
  | block {d : Document} : system.Reads path d →
      Leaves system style headed path
        (some (if headed then s!"# {path.display}\n{d.render style}" else d.render style))
  | nothing : ¬system.Readable path → Leaves system style headed path none

variable {system : FileSystem} {path : Path}

theorem leaves_iff {style : Style} {headed : Bool} {block : Option String} :
    system.Leaves style headed path block ↔ block = system.block? style headed path := by
  unfold block?
  by_cases hreadable : system.Readable path
  · obtain ⟨d, hreads⟩ := hreadable
    rw [read_eq_ok_iff.mpr hreads]
    refine ⟨fun h => ?_, ?_⟩
    · cases h with
      | block hreads' => rw [hreads.unique hreads']
      | nothing hnot => exact absurd ⟨d, hreads⟩ hnot
    · rintro rfl
      exact .block hreads
  · obtain ⟨message, hread⟩ := exists_read_eq_error hreadable
    rw [hread]
    refine ⟨fun h => ?_, ?_⟩
    · cases h with
      | block hreads => exact absurd ⟨_, hreads⟩ hreadable
      | nothing => rfl
    · rintro rfl
      exact .nothing hreadable

theorem Reads.wellFormed {d : Document} (h : system.Reads path d) : d.WellFormed := by
  obtain ⟨text, -, hparse⟩ := h
  exact Document.wellFormed_of_parse (Document.parse_file_ok_iff.mp hparse)

end FileSystem

namespace Batch

/-- What each of the files adds to the text, headed by the path of the file if there are several. -/
def Blocks (system : FileSystem) (style : Style) (files : List Path)
    (blocks : List (Option String)) : Prop :=
  List.Forall₂ (system.Leaves style (1 < files.length)) files blocks

/-- The members of the object that is written. There is one for each path of a file that can be read, as
the path is displayed, and it holds a document that is read under a path displayed so. -/
structure Members (system : FileSystem) (files : List Path) (members : List (String × Json)) :
    Prop where
  sorted : members.Pairwise fun a b => a.1 < b.1
  key_iff (key : String) : key ∈ members.map Prod.fst ↔
    ∃ path ∈ files, path.display = key ∧ system.Readable path
  looksLike : ∀ member ∈ members,
    ∃ path ∈ files, path.display = member.1 ∧ ∃ d, system.Reads path d ∧ d.LooksLike member.2

section Written

variable {system : FileSystem} {files : List Path}

theorem blocks_iff {style : Style} {blocks : List (Option String)} :
    Blocks system style files blocks ↔
      blocks = files.map (system.block? style (1 < files.length)) := by
  unfold Blocks
  generalize decide (1 < files.length) = headed
  induction files generalizing blocks with
  | nil => simp
  | cons path files ih => cases blocks <;> simp [ih, FileSystem.leaves_iff]

theorem addMember_of_reads {path : Path} {d : Document} (h : system.Reads path d)
    (members : List (String × Json)) :
    addMember system members path =
      Keyed.insert path.display (Node.document d).toJson members := by
  rw [addMember, FileSystem.read_eq_ok_iff.mpr h]

theorem addMember_of_not_readable {path : Path} (h : ¬system.Readable path)
    (members : List (String × Json)) : addMember system members path = members := by
  obtain ⟨message, hread⟩ := FileSystem.exists_read_eq_error h
  rw [addMember, hread]

theorem nodup_keys_addMember (path : Path) {members : List (String × Json)}
    (h : (members.map Prod.fst).Nodup) : ((addMember system members path).map Prod.fst).Nodup := by
  unfold addMember
  split
  · exact Keyed.nodup_keys_insert h
  · exact h

theorem nodup_keys_foldl_addMember {members : List (String × Json)}
    (h : (members.map Prod.fst).Nodup) :
    ((files.foldl (addMember system) members).map Prod.fst).Nodup :=
  List.foldlRecOn (motive := fun members : List (String × Json) => (members.map Prod.fst).Nodup) files _ h
    fun _ h path _ => nodup_keys_addMember path h

theorem mem_keys_foldl_addMember_iff (members : List (String × Json)) (key : String) :
    key ∈ (files.foldl (addMember system) members).map Prod.fst ↔
      (∃ path ∈ files, path.display = key ∧ system.Readable path) ∨ key ∈ members.map Prod.fst := by
  induction files generalizing members with
  | nil => simp
  | cons path files ih =>
    rw [List.foldl_cons, ih, List.exists_mem_cons_iff]
    by_cases hreadable : system.Readable path
    · obtain ⟨d, hreads⟩ := hreadable
      have hreadable : system.Readable path := ⟨d, hreads⟩
      have hkeys : key ∈ (addMember system members path).map Prod.fst ↔
          path.display = key ∨ key ∈ members.map Prod.fst := by
        rw [addMember_of_reads hreads, Keyed.keys_insert]
        split <;> grind
      rw [hkeys]
      grind
    · rw [addMember_of_not_readable hreadable]
      grind

theorem exists_of_mem_foldl_addMember (members : List (String × Json))
    (hnodup : (members.map Prod.fst).Nodup) {member : String × Json}
    (hm : member ∈ files.foldl (addMember system) members) :
    (∃ path ∈ files, path.display = member.1 ∧
      ∃ d, system.Reads path d ∧ member.2 = (Node.document d).toJson) ∨ member ∈ members := by
  induction files generalizing members with
  | nil => exact .inr hm
  | cons path files ih =>
    rw [List.foldl_cons] at hm
    rw [List.exists_mem_cons_iff]
    obtain hlater | hm := ih _ (nodup_keys_addMember path hnodup) hm
    · exact .inl (.inr hlater)
    by_cases hreadable : system.Readable path
    · obtain ⟨d, hreads⟩ := hreadable
      rw [addMember_of_reads hreads, Keyed.mem_insert_iff hnodup] at hm
      obtain rfl | ⟨-, hm⟩ := hm
      · exact .inl (.inl ⟨rfl, d, hreads, rfl⟩)
      · exact .inr hm
    · rw [addMember_of_not_readable hreadable] at hm
      exact .inr hm

theorem exists_members (system : FileSystem) (files : List Path) :
    ∃ members, Members system files members ∧ documentsJson system files = .object members := by
  have hnodup : ((files.foldl (addMember system) []).map Prod.fst).Nodup :=
    nodup_keys_foldl_addMember .nil
  refine ⟨_, ⟨Keyed.pairwise_sorted ?_, fun key => ?_, fun member hm => ?_⟩, Json.sortKeys_object _⟩
  · rw [List.map_map]
    exact hnodup
  · rw [((Keyed.sorted_perm _).map Prod.fst).mem_iff, List.map_map]
    exact (mem_keys_foldl_addMember_iff [] key).trans (by simp)
  · obtain ⟨added, hadded, rfl⟩ := List.mem_map.mp ((Keyed.sorted_perm _).mem_iff.mp hm)
    obtain ⟨path, hpath, hdisplay, d, hreads, hvalue⟩ | hm :=
      exists_of_mem_foldl_addMember [] .nil hadded
    · refine ⟨path, hpath, hdisplay, d, hreads, ?_⟩
      rw [hvalue]
      exact hreads.wellFormed.looksLike
    · cases hm

end Written

/-- How many errors a batch counts, where finding nothing at all is one. -/
def errorCount (system : FileSystem) (files : List Path) (faults : List WalkFault) : Nat :=
  if files = [] ∧ faults = [] then 1
  else faults.length + files.countP fun path => ¬system.Readable path

theorem toList_errorLine (count : Nat) : (errorLine count).toList =
    "❌ Encountered ".toList ++ Nat.toDigits 10 count ++ " error(s) while rendering.".toList := by
  have hdigits : (toString count).toList = Nat.toDigits 10 count := Nat.toList_repr
  rw [← hdigits, ← String.toList_append, ← String.toList_append]
  rfl

theorem newline_not_mem_errorLine (count : Nat) : '\n' ∉ (errorLine count).toList := by
  have hdigits : '\n' ∉ Nat.toDigits 10 count := fun hm =>
    absurd (Decimal.isDigit_of_mem_toDigits _ hm) (by decide)
  have hfront : '\n' ∉ "❌ Encountered ".toList := by decide
  have hback : '\n' ∉ " error(s) while rendering.".toList := by decide
  rw [toList_errorLine, List.mem_append, List.mem_append]
  exact fun hm => hm.elim (fun hm => hm.elim hfront hdigits) hback

theorem getLast?_lines_errorLine (front : String) (count : Nat) :
    (Text.lines (front ++ "\n" ++ errorLine count ++ "\n").toList).getLast? =
      some (errorLine count).toList := by
  have hlast : (errorLine count).toList.getLast? = some '.' := by
    rw [toList_errorLine, List.getLast?_append]
    rfl
  rw [String.toList_append, String.toList_append, String.toList_append, List.append_assoc,
    List.append_assoc]
  exact Text.getLast?_lines_append (newline_not_mem_errorLine count) (by rw [hlast]; decide) _

/-- The outcome of a batch that found these files, met these faults and came to its end. -/
structure AccountsFor (system : FileSystem) (files : List Path) (faults : List WalkFault)
    (style : Style) (json : Bool) (outcome : Outcome) : Prop where
  no_errors : outcome.succeeded = true → outcome.stderr = ""
  last_line : outcome.succeeded = false →
    (Text.lines outcome.stderr.toList).getLast? =
      some s!"❌ Encountered {errorCount system files faults} error(s) while rendering.".toList
  /-- The blocks of the files that can be read, with an empty line between two of them. -/
  text : json = false → ∃ blocks, Blocks system style files blocks ∧
    outcome.stdout = if blocks.filterMap id = [] then ""
      else "\n\n".intercalate (blocks.filterMap id) ++ "\n"
  /-- A single object, also if no file can be read. -/
  object : json = true → ∃ members, Members system files members ∧
    outcome.stdout = String.ofList ((Json.object members).indented 0) ++ "\n"

theorem errorCount_eq_zero_iff {system : FileSystem} {files : List Path} {faults : List WalkFault} :
    errorCount system files faults = 0 ↔
      faults = [] ∧ files ≠ [] ∧ ∀ path ∈ files, system.Readable path := by
  unfold errorCount
  split
  · next hnone => simp [hnone]
  · next hsome =>
    rw [Nat.add_eq_zero_iff, List.length_eq_zero_iff, List.countP_eq_zero]
    grind

section Running

variable (system : FileSystem) (paths : List Path) (extensions : List String)

/-- The errors of the search and those of the files that were found. -/
def errors : List String :=
  (Search.ofTargets (Search.wanted extensions) (system.targets paths)).errors ++
    (system.found (Search.wanted extensions) paths).filterMap system.error?

variable (style : Style) (json : Bool)

theorem brokenDown_run : (run { system, paths, extensions, style, json }).brokenDown =
    (system.found (Search.wanted extensions) paths).any system.breaksDown := by
  rw [← Search.ofTargets_files]
  rfl

theorem succeeded_run : (run { system, paths, extensions, style, json }).succeeded =
    (!(run { system, paths, extensions, style, json }).brokenDown &&
      (errors system paths extensions).isEmpty) := by
  rw [errors, ← Search.ofTargets_files]
  rfl

theorem stderr_run : (run { system, paths, extensions, style, json }).stderr =
    if (run { system, paths, extensions, style, json }).brokenDown ||
        (errors system paths extensions).isEmpty then ""
    else "\n".intercalate (errors system paths extensions) ++ "\n" ++
      errorLine (errors system paths extensions).length ++ "\n" := by
  rw [errors, ← Search.ofTargets_files]
  rfl

theorem stdout_run : (run { system, paths, extensions, style, json }).stdout =
    let written := blocks { system, paths, extensions, style, json }
      (system.found (Search.wanted extensions) paths)
    if (run { system, paths, extensions, style, json }).brokenDown || written.isEmpty then ""
    else "\n\n".intercalate written ++ "\n" := by
  rw [← Search.ofTargets_files]
  rfl

variable {style json}

theorem length_errors (h : (run { system, paths, extensions, style, json }).brokenDown = false) :
    (errors system paths extensions).length =
      errorCount system (system.found (Search.wanted extensions) paths) (system.faults paths) := by
  rw [brokenDown_run, List.any_eq_false] at h
  have hcount : ((system.found (Search.wanted extensions) paths).filterMap system.error?).length =
      (system.found (Search.wanted extensions) paths).countP fun path => ¬system.Readable path := by
    rw [List.length_filterMap_eq_countP]
    refine List.countP_congr fun path hm => ?_
    rw [decide_eq_true_iff, FileSystem.isSome_error?_iff (Bool.not_eq_true _ ▸ h path hm)]
  rw [errors, List.length_append, Search.length_ofTargets_errors, hcount, errorCount]
  split
  · next hnone => rw [hnone.1]; rfl
  · rfl

theorem exists_overflows (h : (run { system, paths, extensions, style, json }).brokenDown = true) :
    ∃ path ∈ system.found (Search.wanted extensions) paths, system.Overflows path := by
  rw [brokenDown_run] at h
  obtain ⟨path, hm, hbreaks⟩ := List.any_eq_true.mp h
  exact ⟨path, hm, FileSystem.overflows_of_breaksDown hbreaks⟩

variable (style json)

theorem succeeded_run_iff : (run { system, paths, extensions, style, json }).succeeded = true ↔
    system.faults paths = [] ∧ system.found (Search.wanted extensions) paths ≠ [] ∧
      ∀ path ∈ system.found (Search.wanted extensions) paths, system.Readable path := by
  rw [succeeded_run]
  cases hbroken : (run { system, paths, extensions, style, json }).brokenDown with
  | true =>
    -- The file over which the program broke down cannot be read.
    obtain ⟨path, hm, hoverflows⟩ := exists_overflows system paths extensions hbroken
    simp only [Bool.not_true, Bool.false_and, Bool.false_eq_true, false_iff]
    exact fun hall => hoverflows.not_readable (hall.2.2 path hm)
  | false =>
    rw [Bool.not_false, Bool.true_and, List.isEmpty_iff, ← List.length_eq_zero_iff,
      length_errors system paths extensions hbroken, errorCount_eq_zero_iff]

theorem run_accountsFor (h : (run { system, paths, extensions, style, json }).brokenDown = false) :
    AccountsFor system (system.found (Search.wanted extensions) paths) (system.faults paths) style json
      (run { system, paths, extensions, style, json }) := by
  have hsucceeded : (run { system, paths, extensions, style, json }).succeeded =
      (errors system paths extensions).isEmpty := by
    rw [succeeded_run, h, Bool.not_false, Bool.true_and]
  refine ⟨fun hh => ?_, fun hh => ?_, fun hjson => ?_, fun hjson => ?_⟩
  · rw [stderr_run, h, Bool.false_or, if_pos (hsucceeded ▸ hh)]
  · rw [stderr_run, h, Bool.false_or, if_neg (by rw [← hsucceeded, hh]; decide),
      ← length_errors system paths extensions h]
    exact getLast?_lines_errorLine _ _
  · refine ⟨_, blocks_iff.mpr rfl, ?_⟩
    have hblocks : blocks { system, paths, extensions, style, json }
        (system.found (Search.wanted extensions) paths) =
        ((system.found (Search.wanted extensions) paths).map (system.block? style
          (1 < (system.found (Search.wanted extensions) paths).length))).filterMap id := by
      rw [blocks, if_neg (by simp [hjson]), List.filterMap_map]
      rfl
    rw [stdout_run, h, hblocks]
    simp only [Bool.false_or, List.isEmpty_iff]
  · obtain ⟨members, hmembers, hobject⟩ :=
      exists_members system (system.found (Search.wanted extensions) paths)
    refine ⟨members, hmembers, ?_⟩
    rw [stdout_run, h, ← hobject]
    simp only [blocks, if_pos hjson]
    rfl

end Running

/-- What is left of a batch when the contents of files are other ones: the block of each file with its
old content, and its member unless another file is displayed as it is. -/
structure Undisturbed (system system' : FileSystem) (style : Style) (files : List Path) : Prop where
  block {blocks blocks' : List (Option String)} :
    Blocks system style files blocks → Blocks system' style files blocks' →
      ∀ (i : Nat) (path : Path), files[i]? = some path → system'.content path = system.content path →
        blocks'[i]? = blocks[i]?
  member {members members' : List (String × Json)} :
    Members system files members → Members system' files members' →
      ∀ path ∈ files, (∀ other ∈ files, other.display = path.display → other = path) →
        system'.content path = system.content path →
          ∀ value, (path.display, value) ∈ members' ↔ (path.display, value) ∈ members

section Undisturbed

variable {system system' : FileSystem} {path : Path} {files : List Path}

theorem block?_congr (h : system'.content path = system.content path) (style : Style) (headed : Bool) :
    system'.block? style headed path = system.block? style headed path := by
  have htext : system'.text path = system.text path := by rw [FileSystem.text, FileSystem.text, h]
  have hread : system'.read path = system.read path := by rw [FileSystem.read, FileSystem.read, htext]
  rw [FileSystem.block?, FileSystem.block?, hread]

theorem reads_congr (h : system'.content path = system.content path) (d : Document) :
    system'.Reads path d ↔ system.Reads path d := by
  rw [FileSystem.Reads, FileSystem.Reads, h]

/-- The member of a file that is not displayed as another one is given by the document of that file. -/
theorem Members.mem_iff {members : List (String × Json)} (h : Members system files members)
    (hm : path ∈ files) (hown : ∀ other ∈ files, other.display = path.display → other = path)
    (value : Json) :
    (path.display, value) ∈ members ↔ ∃ d, system.Reads path d ∧ d.LooksLike value := by
  have hlooks : ∀ value, (path.display, value) ∈ members →
      ∃ d, system.Reads path d ∧ d.LooksLike value := fun value hvalue => by
    obtain ⟨other, hother, hdisplay, hreads⟩ := h.looksLike _ hvalue
    rwa [hown other hother hdisplay] at hreads
  refine ⟨hlooks value, fun ⟨d, hreads, hlike⟩ => ?_⟩
  obtain ⟨⟨key, value'⟩, hvalue', rfl⟩ :=
    List.mem_map.mp ((h.key_iff path.display).mpr ⟨path, hm, rfl, d, hreads⟩)
  obtain ⟨d', hreads', hlike'⟩ := hlooks value' hvalue'
  obtain rfl := hreads.unique hreads'
  rwa [hlike.unique hreads.wellFormed hlike']

/-- Paths that are texts are displayed as they are, so that each of them has a member of its own. -/
theorem Members.mem_ofText_iff {texts : List String} {members : List (String × Json)}
    (h : Members system (texts.map Path.ofText) members) {text : String} (hm : text ∈ texts)
    (value : Json) : (text, value) ∈ members ↔
      ∃ d, system.Reads (Path.ofText text) d ∧ d.LooksLike value := by
  rw [← h.mem_iff (List.mem_map_of_mem hm) (fun other hother hdisplay => ?_), Path.display_ofText]
  obtain ⟨text', -, rfl⟩ := List.mem_map.mp hother
  rw [Path.display_ofText, Path.display_ofText] at hdisplay
  rw [hdisplay]

/-- Files that are all displayed alike share a member. -/
theorem Members.exists_eq_singleton {members : List (String × Json)} (h : Members system files members)
    {key : String} (hkey : ∀ path ∈ files, path.display = key)
    (hreadable : ∃ path ∈ files, system.Readable path) : ∃ value, members = [(key, value)] := by
  have hkeys : ∀ member ∈ members, member.1 = key := fun member hm => by
    obtain ⟨path, hpath, hdisplay, -⟩ := (h.key_iff member.1).mp (List.mem_map_of_mem hm)
    exact hdisplay.symm.trans (hkey path hpath)
  match members with
  | [] =>
    obtain ⟨path, hpath, hread⟩ := hreadable
    cases (h.key_iff path.display).mpr ⟨path, hpath, rfl, hread⟩
  | [member] => exact ⟨member.2, by rw [← hkeys member List.mem_cons_self]⟩
  | first :: second :: _ =>
    have hlt := List.rel_of_pairwise_cons h.sorted List.mem_cons_self
    rw [hkeys first List.mem_cons_self, hkeys second (by simp)] at hlt
    exact absurd hlt (String.lt_irrefl key)

theorem undisturbed (system system' : FileSystem) (style : Style) (files : List Path) :
    Undisturbed system system' style files := by
  refine ⟨fun hblocks hblocks' i path hi hsame => ?_,
    fun hmembers hmembers' path hm hown hsame value => ?_⟩
  · rw [blocks_iff.mp hblocks, blocks_iff.mp hblocks', List.getElem?_map, List.getElem?_map, hi,
      Option.map_some, Option.map_some, block?_congr hsame]
  · rw [hmembers.mem_iff hm hown, hmembers'.mem_iff hm hown]
    simp only [reads_congr hsame]

end Undisturbed

/-- A batch succeeds if and only if nothing fails. Where something fails it still writes what can be read
and counts what cannot, and neither depends on the contents of other files. Only an error too far to the
right to be marked keeps it from coming to its end. In a file tree whatever is found is read as it stands
there, unless its path is too long. -/
theorem run_isolates_failures (system : FileSystem) (paths : List Path) (extensions : List String)
    (style : Style) (json : Bool) :
    let files := system.found (Search.wanted extensions) paths
    let faults := system.faults paths
    let outcome := run { system, paths, extensions, style, json }
    (outcome.succeeded = true ↔
      faults = [] ∧ files ≠ [] ∧ ∀ path ∈ files, system.Readable path) ∧
    (outcome.brokenDown = false → AccountsFor system files faults style json outcome) ∧
    (outcome.brokenDown = true → ∃ path ∈ files, system.Overflows path) ∧
    (∀ system' : FileSystem, (∀ path ∈ paths, system'.place path = system.place path) →
      system'.found (Search.wanted extensions) paths = files ∧ system'.faults paths = faults ∧
        Undisturbed system system' style files) ∧
    ∀ v : Volume, v.root.WellFormed → v.system = system → ∀ path ∈ files,
      ∃ place, v.root.at? place = some .file ∧
        system.content path = if path.isTooLong then .error .nameTooLong else v.content place := by
  refine ⟨succeeded_run_iff system paths extensions style json,
    run_accountsFor system paths extensions style json, exists_overflows system paths extensions,
    fun system' hplace => ?_, ?_⟩
  · exact ⟨FileSystem.found_congr hplace, FileSystem.faults_congr hplace,
      undisturbed system system' style _⟩
  · rintro v hroot rfl path hm
    exact Volume.exists_content_of_mem_found hroot hm

/-- A file that is asked for by two paths, one that is not UTF-8, and a path that leads nowhere. -/
theorem run_isolates_failures_bad_bytes :
    let name (text : String) : FileName := Text.Utf8.encode text.toList
    let volume (bytes : List UInt8) : Volume :=
      { root := .dir [(name "w", .dir [(name "a.graphql", .file), (name "bad.graphql", .file),
          (name "d", .dir [(name "b.graphqls", .file)])])]
        content := fun names =>
          if names = [name "w", name "bad.graphql"] then .ok bytes else .ok (name "\x7ba\x7d")
        workingDirectory := [name "w"] }
    let paths := ["d/", "bad.graphql", "gone", "/w/a.graphql", "../w/a.graphql"].map Path.ofText
    let outcome := run { system := (volume [0xFF]).system, paths }
    outcome.succeeded = false ∧ outcome.brokenDown = false ∧
      (Text.lines outcome.stderr.toList).getLast? =
        some "❌ Encountered 2 error(s) while rendering.".toList ∧
      (volume []).system.found (Search.wanted []) paths =
        ["d/b.graphqls", "bad.graphql", "/w/a.graphql", "../w/a.graphql"].map Path.ofText := by
  intro name volume paths outcome
  obtain ⟨hsucceeded, haccounts, -, hother, -⟩ :=
    run_isolates_failures (volume [0xFF]).system paths [] .pretty false
  have hfailed : outcome.succeeded = false := by decide +kernel
  have hended : outcome.brokenDown = false := by decide +kernel
  refine ⟨hfailed, hended, ?_, ?_⟩
  · rw [(haccounts hended).last_line hfailed]
    decide +kernel
  · rw [(hother (volume []).system fun path _ => (volume [0xFF]).place_with_content _ path).1]
    decide +kernel

/-- Files that are not written although each of them holds a document: one whose path becomes too long
below a directory, one of two that are displayed alike, and one that is read after an error too far to the
right. -/
theorem documents_not_written :
    let name (text : String) : FileName := Text.Utf8.encode text.toList
    let start := Path.dotted 2045 (name "d")
    let long := start.join (name "a.graphql")
    let deep : Volume :=
      { root := .dir [(name "d", .dir [(name "a.graphql", .file)])]
        content := fun _ => .ok (name "\x7ba\x7d") }
    let p : Path := ⟨0xFF :: name ".graphql"⟩
    let q : Path := ⟨0xFE :: name ".graphql"⟩
    let flat (first : List UInt8) : Volume :=
      { root := .dir [(p.bytes, .file), (q.bytes, .file)]
        content := fun names => .ok (if names = [p.bytes] then first else name "\x7bb\x7d") }
    let far := List.replicate 65536 ' ' ++ ['}']
    let read := run { system := (flat (name "\x7ba\x7d")).system, paths := [p, q], json := true }
    let broken := run { system := (flat (Text.Utf8.encode far)).system, paths := [p, q] }
    (deep.system.faults [start] = [] ∧ deep.system.found (Search.wanted []) [start] = [long] ∧
      (∃ d, Document.parse "\x7ba\x7d".toList { file := some long.display } = .ok d) ∧
      (run { system := deep.system, paths := [start] }).succeeded = false) ∧
    (p ≠ q ∧ (flat (name "\x7ba\x7d")).system.Readable p ∧
      (flat (name "\x7ba\x7d")).system.Readable q ∧ read.succeeded = true ∧
      ∃ key value, read.stdout = String.ofList ((Json.object [(key, value)]).indented 0) ++ "\n") ∧
    (flat (Text.Utf8.encode far)).system.found (Search.wanted []) [p, q] = [p, q] ∧
    (flat (Text.Utf8.encode far)).system.Readable q ∧ broken.brokenDown = true ∧ broken.stdout = "" := by
  intro name start long deep p q flat far read broken
  have hfound (first : List UInt8) : (flat first).system.found (Search.wanted []) [p, q] = [p, q] := by
    rw [FileSystem.found_congr fun path _ => (flat []).place_with_content _ path]
    decide +kernel
  refine ⟨?_, ?_, hfound _, FileSystem.isOk_read_iff.mp (by decide +kernel), ?_⟩
  -- The directory is reached, and one name more makes the path too long.
  · have hleads : deep.LeadsTo start [name "d"] (.dir [(name "a.graphql", .file)]) :=
      Volume.leadsTo_dotted rfl (by decide +kernel) rfl 2045
    have hlength : start.bytes.length = 4091 := Path.length_bytes_dotted 2045 (name "d")
    have hshort : start.isTooLong = false := by
      rw [Path.isTooLong, hlength]
      rfl
    have hlong : long.isTooLong = true := by
      have hle := Path.le_length_bytes_join start (name "a.graphql")
      rw [hlength] at hle
      exact decide_eq_true (Nat.lt_of_lt_of_le (by decide) hle)
    have hwanted : long.Wanted (Search.wanted []) := by
      refine ⟨"graphql", by decide +kernel, ?_⟩
      rw [Path.extension?, Path.fileName?_join hleads.ne_nil (by decide +kernel)]
      decide +kernel
    obtain ⟨hfaults, hlongFound⟩ :=
      FileSystem.found_of_place_dir (hleads.place_eq hshort) hshort hwanted
    obtain ⟨d, hd⟩ : ∃ d, Document.parse "\x7ba\x7d".toList = .ok d := ⟨_, rfl⟩
    refine ⟨hfaults, hlongFound, ⟨d, Document.parse_file_ok_iff.mpr hd⟩, ?_⟩
    refine Bool.eq_false_iff.mpr fun hsucceeded => deep.not_readable_of_isTooLong hlong ?_
    have hall := ((succeeded_run_iff deep.system [start] [] .pretty false).mp hsucceeded).2.2
    rw [hlongFound] at hall
    exact hall long List.mem_cons_self
  -- Both files are read, and their documents come under one key.
  · have hread : (flat (name "\x7ba\x7d")).system.Readable p :=
      FileSystem.isOk_read_iff.mp (by decide +kernel)
    have hother : (flat (name "\x7ba\x7d")).system.Readable q :=
      FileSystem.isOk_read_iff.mp (by decide +kernel)
    have hsucceeded : read.succeeded = true := by decide +kernel
    have hended : read.brokenDown = false := by decide +kernel
    have hdisplay : ∀ path ∈ [p, q], path.display = p.display := by decide +kernel
    obtain ⟨members, hmembers, hstdout⟩ := (run_accountsFor _ [p, q] [] .pretty true hended).object rfl
    rw [hfound] at hmembers
    obtain ⟨value, rfl⟩ := hmembers.exists_eq_singleton hdisplay ⟨p, List.mem_cons_self, hread⟩
    exact ⟨by decide, hread, hother, hsucceeded, _, value, hstdout⟩
  -- The first file breaks the program down before the second one is written.
  · obtain ⟨e, hparse, -, hreport⟩ := Document.exists_refused_behind_blanks 65536 (some p.display)
    have hcontent : (flat (Text.Utf8.encode far)).system.content p = .ok (Text.Utf8.encode far) := rfl
    have hbroken : broken.brokenDown = true := by
      rw [brokenDown_run, hfound]
      refine List.any_eq_true.mpr ⟨p, List.mem_cons_self, ?_⟩
      exact FileSystem.breaksDown_of_report?_eq_none hcontent hparse (hreport (by decide))
    refine ⟨hbroken, ?_⟩
    rw [stdout_run, hbroken]
    rfl

end Batch

end QueryDoc
