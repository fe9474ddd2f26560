import QueryDoc.Batch
import QueryDoc.Proofs.Diagnostic.Snippet
import QueryDoc.Proofs.Files.Volume
import QueryDoc.Proofs.Text.Utf8

/-! What a batch is about: the files that paths lead to, the places where walks fail, and which of the
files hold a document. -/

namespace QueryDoc

def Path.Wanted (extensions : List String) (path : Path) : Prop :=
  ∃ ext ∈ extensions, path.extension? = some ext

instance (extensions : List String) : DecidablePred (Path.Wanted extensions) := fun path =>
  inferInstanceAs (Decidable (∃ ext ∈ extensions, path.extension? = some ext))

theorem Path.display_ofText (text : String) : (ofText text).display = text := by
  rw [display, ofText, Text.Utf8.lossy_encode, String.ofList_toList]

namespace FileSystem

section Reading

variable {system : FileSystem} {path : Path}

/-- The bytes that are read under the path encode a text of the document. -/
def Reads (system : FileSystem) (path : Path) (d : Document) : Prop :=
  ∃ text, system.content path = .ok (Text.Utf8.encode text) ∧
    Document.parse text { file := some path.display } = .ok d

def Readable (system : FileSystem) (path : Path) : Prop :=
  ∃ d, system.Reads path d

/-- What is read under the path has an error too far to the right to be marked. -/
def Overflows (system : FileSystem) (path : Path) : Prop :=
  ∃ text e, system.content path = .ok (Text.Utf8.encode text) ∧
    Document.parse text { file := some path.display } = .error e ∧
    ∃ span ∈ e.spans, Snippet.indentLimit < span.start.column

theorem text_eq_ok_iff {text : List Char} :
    system.text path = .ok text ↔ system.content path = .ok (Text.Utf8.encode text) := by
  unfold FileSystem.text
  cases system.content path with
  | error fault => simp
  | ok bytes =>
    dsimp only
    rw [Except.ok.injEq, ← Text.Utf8.decode_eq_ok_iff]
    cases Text.Utf8.decode bytes <;> simp

theorem read_eq_ok_iff {d : Document} : system.read path = .ok d ↔ system.Reads path d := by
  constructor
  · intro h
    unfold read at h
    split at h
    · cases h
    next text htext =>
    split at h
    · next hparse => exact ⟨text, text_eq_ok_iff.mp htext, Except.ok.inj h ▸ hparse⟩
    · cases h
  · rintro ⟨text, hcontent, hparse⟩
    rw [read, text_eq_ok_iff.mpr hcontent]
    simp only [hparse]

theorem Reads.unique {d d' : Document} (h : system.Reads path d) (h' : system.Reads path d') :
    d = d' := by
  have hh := (read_eq_ok_iff.mpr h).symm.trans (read_eq_ok_iff.mpr h')
  exact Except.ok.inj hh

theorem exists_read_eq_error (h : ¬system.Readable path) :
    ∃ message, system.read path = .error message := by
  cases hread : system.read path with
  | error message => exact ⟨message, rfl⟩
  | ok d => exact absurd ⟨d, read_eq_ok_iff.mp hread⟩ h

theorem isOk_read_iff : (system.read path).isOk = true ↔ system.Readable path := by
  unfold Readable
  simp only [← read_eq_ok_iff]
  cases system.read path <;> simp [Except.isOk, Except.toBool]

instance : DecidablePred system.Readable := fun _ => decidable_of_iff _ isOk_read_iff

theorem isSome_error?_iff (h : system.breaksDown path = false) :
    (system.error? path).isSome = true ↔ ¬system.Readable path := by
  unfold breaksDown at h
  unfold error? Readable
  simp only [← read_eq_ok_iff]
  cases hread : system.read path with
  | ok d => simp
  | error message => cases message <;> simp_all

theorem overflows_of_breaksDown (h : system.breaksDown path = true) : system.Overflows path := by
  unfold breaksDown read at h
  split at h
  · cases h
  next message hread =>
  split at hread
  · obtain rfl := Except.error.inj hread
    cases h
  next text htext =>
  split at hread
  · cases hread
  next e hparse =>
  obtain rfl := Except.error.inj hread
  exact ⟨text, e, text_eq_ok_iff.mp htext, hparse,
    e.exists_of_report?_eq_none (Option.isNone_iff_eq_none.mp h)⟩

theorem Overflows.not_readable (h : system.Overflows path) : ¬system.Readable path := by
  rintro ⟨d, text', hcontent', hparse'⟩
  obtain ⟨text, e, hcontent, hparse, -⟩ := h
  have htext := (text_eq_ok_iff.mpr hcontent).symm.trans (text_eq_ok_iff.mpr hcontent')
  obtain rfl := Except.ok.inj htext
  cases hparse.symm.trans hparse'

theorem breaksDown_of_report?_eq_none {text : List Char} {e : ReadError}
    (hcontent : system.content path = .ok (Text.Utf8.encode text))
    (hparse : Document.parse text { file := some path.display } = .error e)
    (hreport : e.report? (some text) = none) : system.breaksDown path = true := by
  rw [breaksDown, read, text_eq_ok_iff.mpr hcontent]
  simp only [hparse, hreport]
  rfl

end Reading

/-- What is met on walks from the paths, one after the other. -/
def visits (system : FileSystem) (paths : List Path) : List (Except WalkFault WalkEntry) :=
  (system.targets paths).flatMap Target.visits

def faults (system : FileSystem) (paths : List Path) : List WalkFault :=
  (system.visits paths).filterMap Search.fault?

/-- The path that is met, if a file stands there. -/
def file? : Except WalkFault WalkEntry → Option Path
  | .ok ⟨path, true⟩ => some path
  | _ => none

/-- The path itself, if it is the only one and a file stands there. -/
def explicit (system : FileSystem) : List Path → List Path
  | [path] =>
    match system.place path with
    | .ok .file => [path]
    | _ => []
  | _ => []

/-- The files with wanted extensions in the order of the walks. -/
def matching (system : FileSystem) (extensions : List String) (paths : List Path) : List Path :=
  ((system.visits paths).filterMap file?).filter (·.Wanted extensions)

/-- The matching files, and if there are none of them the one file that is asked for by itself. -/
def found (system : FileSystem) (extensions : List String) (paths : List Path) : List Path :=
  if system.matching extensions paths = [] then system.explicit paths
  else system.matching extensions paths

section Places

variable {system : FileSystem} {extensions : List String} {paths : List Path}

/-- What is found only depends on what stands at the paths. -/
theorem visits_congr {system' : FileSystem}
    (h : ∀ path ∈ paths, system'.place path = system.place path) :
    system'.visits paths = system.visits paths := by
  rw [visits, visits, targets, targets, List.map_congr_left fun path hm => by rw [h path hm]]

theorem faults_congr {system' : FileSystem}
    (h : ∀ path ∈ paths, system'.place path = system.place path) :
    system'.faults paths = system.faults paths := by
  rw [faults, faults, visits_congr h]

theorem explicit_congr {system' : FileSystem}
    (h : ∀ path ∈ paths, system'.place path = system.place path) :
    system'.explicit paths = system.explicit paths := by
  unfold explicit
  split
  · next path => rw [h path List.mem_cons_self]
  · rfl

theorem found_congr {system' : FileSystem}
    (h : ∀ path ∈ paths, system'.place path = system.place path) :
    system'.found extensions paths = system.found extensions paths := by
  rw [found, found, matching, matching, visits_congr h, explicit_congr h]

/-- Every file that is found is met on a walk from one of the paths. -/
theorem exists_walk_of_mem_found {path : Path} (hm : path ∈ system.found extensions paths) :
    ∃ start t, system.place start = .ok t ∧ .ok ⟨path, true⟩ ∈ t.walk start := by
  unfold found at hm
  split at hm
  · unfold explicit at hm
    split at hm
    · next start =>
      split at hm
      · next hplace =>
        obtain rfl := List.mem_singleton.mp hm
        exact ⟨path, .file, hplace, List.mem_singleton_self _⟩
      · cases hm
    · cases hm
  · obtain ⟨visit, hvisit, hfile⟩ := List.mem_filterMap.mp (List.mem_filter.mp hm).1
    unfold file? at hfile
    split at hfile
    · obtain rfl := Option.some.inj hfile
      rw [visits, targets, List.flatMap_map, List.mem_flatMap] at hvisit
      obtain ⟨start, -, hvisit⟩ := hvisit
      unfold Target.visits at hvisit
      split at hvisit
      · next t hplace => exact ⟨start, t, hplace, hvisit⟩
      · cases List.mem_singleton.mp hvisit
    · cases hfile

theorem found_of_place_dir {start : Path} {name : FileName}
    (hplace : system.place start = .ok (.dir [(name, .file)])) (hshort : start.isTooLong = false)
    (hwanted : (start.join name).Wanted extensions) :
    system.faults [start] = [] ∧ system.found extensions [start] = [start.join name] := by
  have hvisits : system.visits [start] = [.ok ⟨start, false⟩, .ok ⟨start.join name, true⟩] := by
    simp [visits, targets, Target.visits, hplace, FileTree.walk, FileTree.walkEntries, hshort]
  have hmatching : system.matching extensions [start] = [start.join name] := by
    rw [matching, hvisits]
    exact List.filter_cons_of_pos (decide_eq_true hwanted)
  constructor
  · rw [faults, hvisits]
    rfl
  · rw [found, hmatching, if_neg (List.cons_ne_nil _ _)]

end Places

end FileSystem

/-- Nothing is read under a path that is too long, whatever stands in the file. -/
theorem Volume.not_readable_of_isTooLong (v : Volume) {path : Path} (h : path.isTooLong = true) :
    ¬v.system.Readable path := by
  rintro ⟨d, text, hcontent, -⟩
  obtain ⟨fault, hfind⟩ := exists_find_eq_error (v := v) h
  simp only [system, hfind] at hcontent
  cases hcontent

/-- A file that is found in a tree is one of its files, and its content is read unless its path is too
long. -/
theorem Volume.exists_content_of_mem_found {v : Volume} (hroot : v.root.WellFormed)
    {extensions : List String} {paths : List Path} {path : Path}
    (hm : path ∈ v.system.found extensions paths) :
    ∃ place, v.root.at? place = some .file ∧
      v.system.content path = if path.isTooLong then .error .nameTooLong else v.content place := by
  obtain ⟨start, t, hplace, hwalk⟩ := FileSystem.exists_walk_of_mem_found hm
  exact exists_content_of_mem_walk hroot hplace hwalk rfl

namespace Search

theorem matching?_eq_filter (extensions : List String) (entry : WalkEntry) :
    matching? extensions entry =
      (FileSystem.file? (.ok entry)).filter (·.Wanted extensions) := by
  obtain ⟨path, isFile⟩ := entry
  cases isFile with
  | false => rfl
  | true =>
    rw [matching?, FileSystem.file?, Option.filter_some]
    cases hext : path.extension? <;> simp [Path.Wanted, hext]

theorem filterMap_matching? (extensions : List String) (visits : List (Except WalkFault WalkEntry)) :
    (visits.filterMap Except.toOption).filterMap (matching? extensions) =
      (visits.filterMap FileSystem.file?).filter (·.Wanted extensions) := by
  rw [List.filterMap_filterMap, List.filter_filterMap]
  congr 1
  funext visit
  cases visit with
  | error fault => rfl
  | ok entry => exact matching?_eq_filter extensions entry

variable (system : FileSystem) (extensions : List String) (paths : List Path)

theorem flatMap_files :
    ((system.targets paths).map (ofTarget extensions)).flatMap (·.files) =
      system.matching extensions paths := by
  rw [FileSystem.matching, ← filterMap_matching?, FileSystem.visits, List.filterMap_flatMap,
    List.filterMap_flatMap, List.flatMap_map]
  rfl

theorem length_flatMap_errors :
    (((system.targets paths).map (ofTarget extensions)).flatMap (·.errors)).length =
      (system.faults paths).length := by
  rw [FileSystem.faults, FileSystem.visits, List.filterMap_flatMap, List.flatMap_map,
    List.length_flatMap, List.length_flatMap]
  congr 2
  funext target
  exact List.length_map _

theorem toList_explicitFile? :
    (explicitFile? (system.targets paths)).toList = system.explicit paths := by
  match paths with
  | [] => rfl
  | [path] =>
    simp only [FileSystem.targets, List.map_singleton, FileSystem.explicit]
    cases system.place path with
    | error fault => rfl
    | ok t => cases t <;> rfl
  | _ :: _ :: _ =>
    rw [FileSystem.explicit.eq_2 _ _ (by simp), explicitFile?.eq_2 _ (by simp [FileSystem.targets])]
    rfl

theorem files_ofTargets (targets : List Target) :
    (ofTargets extensions targets).files =
      if (targets.map (ofTarget extensions)).flatMap (·.files) = [] then (explicitFile? targets).toList
      else (targets.map (ofTarget extensions)).flatMap (·.files) := by
  simp only [ofTargets, List.isEmpty_iff]
  split
  · next hnone => cases explicitFile? targets <;> simp [hnone]
  · rfl

/-- To find nothing is the only error that is not a fault of a walk. -/
theorem length_errors_ofTargets (targets : List Target) :
    (ofTargets extensions targets).errors.length =
      if (ofTargets extensions targets).files = [] ∧
          (targets.map (ofTarget extensions)).flatMap (·.errors) = [] then 1
      else ((targets.map (ofTarget extensions)).flatMap (·.errors)).length := by
  rw [files_ofTargets]
  simp only [ofTargets, List.isEmpty_iff]
  generalize (targets.map (ofTarget extensions)).flatMap (·.errors) = errors
  generalize (targets.map (ofTarget extensions)).flatMap (·.files) = files
  split
  · cases explicitFile? targets <;> by_cases herrors : errors = [] <;> simp [herrors]
  · next hfiles => simp [hfiles]

theorem ofTargets_files :
    (ofTargets extensions (system.targets paths)).files = system.found extensions paths := by
  rw [files_ofTargets, flatMap_files, toList_explicitFile?, FileSystem.found]

theorem length_ofTargets_errors :
    (ofTargets extensions (system.targets paths)).errors.length =
      if system.found extensions paths = [] ∧ system.faults paths = [] then 1
      else (system.faults paths).length := by
  have hlen := length_flatMap_errors system extensions paths
  simp only [length_errors_ofTargets, ofTargets_files, ← List.length_eq_zero_iff, hlen]

end Search

end QueryDoc
