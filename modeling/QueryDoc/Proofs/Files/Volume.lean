import QueryDoc.Files.Volume
import QueryDoc.Keyed

/-! Walks in a file system that is a tree. The path of a file that is met on a walk leads to that file
again, so what is read under the path is the content of the file, unless the path has become too long. -/

namespace QueryDoc

namespace Path

/-- What a directory may call an entry. -/
structure IsName (name : FileName) : Prop where
  not_stays : stays name = false
  not_goesBack : goesBack name = false
  slash_not_mem : slash ∉ name
  le_limit : name.length ≤ nameLimit

theorem isName_iff {name : FileName} :
    IsName name ↔ stays name = false ∧ goesBack name = false ∧ slash ∉ name ∧
      name.length ≤ nameLimit :=
  ⟨fun ⟨h₁, h₂, h₃, h₄⟩ => ⟨h₁, h₂, h₃, h₄⟩, fun ⟨h₁, h₂, h₃, h₄⟩ => ⟨h₁, h₂, h₃, h₄⟩⟩

instance : DecidablePred IsName := fun _ => decidable_of_iff _ isName_iff.symm

theorem parts_append_slash (front name : List UInt8) :
    parts ⟨front ++ slash :: name⟩ = parts ⟨front⟩ ++ parts ⟨name⟩ :=
  List.splitOn_append_cons_self front name

theorem parts_of_slash_not_mem {name : FileName} (h : slash ∉ name) : parts ⟨name⟩ = [name] :=
  List.splitOn_eq_singleton h

/-- A joined path has one part more, which takes the place of an empty part behind a slash. -/
theorem exists_parts_join {path : Path} (hne : path.bytes ≠ []) {name : FileName}
    (h : slash ∉ name) :
    ∃ front, (path.parts = front ∨ path.parts = front ++ [[]]) ∧
      (path.join name).parts = front ++ [name] := by
  obtain ⟨bytes⟩ := path
  obtain rfl | ⟨front, last, rfl⟩ := bytes.eq_nil_or_concat
  · exact absurd rfl hne
  rw [List.concat_eq_append]
  unfold join
  rw [List.getLast?_concat]
  -- Behind a slash at the end stands an empty part, which the name then replaces.
  by_cases hslash : last = slash
  · refine ⟨parts ⟨front⟩, .inr ?_, ?_⟩
    · rw [hslash, parts_append_slash, parts_of_slash_not_mem List.not_mem_nil]
    · simp only [if_pos hslash]
      rw [hslash, List.append_assoc, List.singleton_append, parts_append_slash,
        parts_of_slash_not_mem h]
  · refine ⟨_, .inl rfl, ?_⟩
    simp only [if_neg hslash]
    rw [parts_append_slash, parts_of_slash_not_mem h]

theorem exists_bytes_join (path : Path) (name : FileName) :
    ∃ more, (path.join name).bytes = path.bytes ++ more := by
  unfold join
  split
  · next hnone => exact ⟨name, by rw [List.getLast?_eq_none_iff.mp hnone]; rfl⟩
  · split
    · exact ⟨name, rfl⟩
    · exact ⟨slash :: name, rfl⟩

theorem le_length_bytes_join (path : Path) (name : FileName) :
    path.bytes.length + name.length ≤ (path.join name).bytes.length := by
  unfold join
  split
  · next hnone => simp [List.getLast?_eq_none_iff.mp hnone]
  · split <;> simp

theorem isAbsolute_join {path : Path} (hne : path.bytes ≠ []) (name : FileName) :
    (path.join name).isAbsolute = path.isAbsolute := by
  obtain ⟨more, hmore⟩ := exists_bytes_join path name
  rw [isAbsolute, isAbsolute, hmore, List.head?_append, Option.or_of_isSome (List.isSome_head?.mpr hne)]

theorem bytes_join_ne_nil {path : Path} (hne : path.bytes ≠ []) (name : FileName) :
    (path.join name).bytes ≠ [] := by
  obtain ⟨more, hmore⟩ := exists_bytes_join path name
  rw [hmore]
  exact List.append_ne_nil_of_left_ne_nil hne more

theorem fileName?_join {path : Path} (hne : path.bytes ≠ []) {name : FileName} (h : IsName name) :
    (path.join name).fileName? = some name := by
  obtain ⟨front, -, hjoin⟩ := exists_parts_join hne h.slash_not_mem
  have hlast : ((front ++ [name]).filter (!stays ·)).getLast? = some name := by
    rw [List.filter_append, List.filter_cons_of_pos (by rw [h.not_stays]; rfl)]
    exact List.getLast?_concat
  rw [fileName?, hjoin, hlast, Option.filter_some, h.not_goesBack]
  rfl

/-- A name behind some dots, which all stay in one place. -/
def dotted (n : Nat) (name : FileName) : Path :=
  ⟨(List.replicate n [dot, slash]).flatten ++ name⟩

theorem parts_dotted (n : Nat) {name : FileName} (h : slash ∉ name) :
    (dotted n name).parts = List.replicate n [dot] ++ [name] := by
  induction n with
  | zero => exact parts_of_slash_not_mem h
  | succ n ih =>
    have hdotted : dotted (n + 1) name = ⟨[dot] ++ slash :: (dotted n name).bytes⟩ := by
      simp [dotted, List.replicate_succ]
    rw [hdotted, parts_append_slash, ih, parts_of_slash_not_mem (by decide), List.replicate_succ]
    rfl

theorem isAbsolute_dotted (n : Nat) {name : FileName} (h : slash ∉ name) :
    (dotted n name).isAbsolute = false := by
  cases n with
  | succ n => rfl
  | zero =>
    cases name with
    | nil => rfl
    | cons c cs =>
      have hne : c ≠ slash := fun heq => h (heq ▸ List.mem_cons_self)
      simpa [isAbsolute, dotted] using hne

theorem length_bytes_dotted (n : Nat) (name : FileName) :
    (dotted n name).bytes.length = 2 * n + name.length := by
  simp [dotted, Nat.mul_comm]

end Path

namespace FileTree

theorem induction {motive : FileTree → Prop} (file : motive .file) (special : motive .special)
    (dir : ∀ entries, (∀ entry ∈ entries, motive entry.2) → motive (.dir entries))
    (closed : ∀ fault, motive (.closed fault)) (t : FileTree) : motive t :=
  @FileTree.rec motive (fun entries => ∀ entry ∈ entries, motive entry.2)
    (fun entry => motive entry.2) file special dir closed nofun
    (fun _ _ h hs => List.forall_mem_cons.mpr ⟨h, hs⟩) (fun _ _ h => h) t

/-- All directories of the tree give their entries names, and no name twice. -/
inductive WellFormed : FileTree → Prop
  | file : WellFormed .file
  | special : WellFormed .special
  | closed (fault : PathFault) : WellFormed (.closed fault)
  | dir {entries : List (FileName × FileTree)} :
      (entries.map Prod.fst).Nodup → (∀ entry ∈ entries, Path.IsName entry.1) →
      (∀ entry ∈ entries, WellFormed entry.2) → WellFormed (.dir entries)

theorem WellFormed.of_mem {entries : List (FileName × FileTree)} (h : (FileTree.dir entries).WellFormed)
    {entry : FileName × FileTree} (hm : entry ∈ entries) : entry.2.WellFormed := by
  cases h with
  | dir _ _ hbelow => exact hbelow entry hm

theorem WellFormed.of_at? {t u : FileTree} (h : t.WellFormed) {names : List FileName}
    (hat : t.at? names = some u) : u.WellFormed := by
  induction names generalizing t with
  | nil =>
    obtain rfl := Option.some.inj hat
    exact h
  | cons name names ih =>
    obtain ⟨next, hnext, hrest⟩ := Option.bind_eq_some_iff.mp hat
    refine ih ?_ hrest
    cases t with
    | dir entries =>
      obtain ⟨before, after, hsplit, -⟩ := List.lookup_eq_some_iff.mp hnext
      have hm : (name, next) ∈ entries := hsplit ▸ List.mem_append_right before List.mem_cons_self
      exact h.of_mem hm
    | _ => cases hnext

theorem at?_append_singleton (t : FileTree) (names : List FileName) (name : FileName) :
    t.at? (names ++ [name]) = (t.at? names).bind (child? name) := by
  induction names generalizing t with
  | nil => exact (Option.bind_fun_some _).trans (Option.bind_some _ _).symm
  | cons first names ih =>
    rw [List.cons_append, at?, at?, Option.bind_assoc]
    congr 1
    funext next
    exact ih next

theorem mem_walkEntries {path : Path} {visit : Except WalkFault WalkEntry}
    {entries : List (FileName × FileTree)} :
    visit ∈ walkEntries path entries ↔
      ∃ entry ∈ entries, visit ∈ entry.2.walk (path.join entry.1) := by
  induction entries with
  | nil => simp [walkEntries]
  | cons entry entries ih => simp [walkEntries, ih]

end FileTree

namespace Volume

variable {v : Volume} {path : Path} {names : List FileName} {t : FileTree}

theorem follow_append (v : Volume) (place front back : List FileName) :
    v.follow place (front ++ back) =
      match v.follow place front with
      | .error fault => .error fault
      | .ok next => v.follow next back := by
  induction front generalizing place with
  | nil => rfl
  | cons part front ih =>
    rw [List.cons_append, follow, follow]
    cases v.root.at? place with
    | none => rfl
    | some here =>
      dsimp only
      split
      · rfl
      split
      · exact ih _
      split
      · exact ih _
      split
      · rfl
      · exact ih _

theorem follow_with_content (v : Volume) (content : List FileName → Except PathFault (List UInt8))
    (place parts : List FileName) : { v with content }.follow place parts = v.follow place parts := by
  induction parts generalizing place with
  | nil => rfl
  | cons part parts ih => simp only [follow, ih]

/-- Where a path leads does not depend on what is in the files. -/
theorem place_with_content (v : Volume) (content : List FileName → Except PathFault (List UInt8))
    (path : Path) : { v with content }.system.place path = v.system.place path := by
  simp only [system, find, follow_with_content]

/-- An empty part behind the last slash of a path only asks for a directory. -/
theorem follow_of_append_nil {place front : List FileName}
    (h : v.follow place (front ++ [[]]) = .ok names) : v.follow place front = .ok names := by
  rw [follow_append] at h
  cases hfront : v.follow place front with
  | error fault =>
    rw [hfront] at h
    cases h
  | ok next =>
    simp only [hfront, follow] at h
    split at h
    · cases h
    split at h
    · cases h
    · exact h

theorem follow_append_name {place front : List FileName} {name : FileName}
    {entries : List (FileName × FileTree)} (hname : Path.IsName name)
    (h : v.follow place front = .ok names) (hat : v.root.at? names = some (.dir entries)) :
    v.follow place (front ++ [name]) = .ok (names ++ [name]) := by
  rw [follow_append, h]
  simp only [follow, hat, hname.not_stays, hname.not_goesBack, FileTree.isDirectory]
  rw [if_neg (Nat.not_lt.mpr hname.le_limit)]
  rfl

/-- The path leads to the tree, however long the path is. -/
structure LeadsTo (v : Volume) (path : Path) (names : List FileName) (t : FileTree) : Prop where
  ne_nil : path.bytes ≠ []
  follow : v.follow (if path.isAbsolute then [] else v.workingDirectory) path.parts = .ok names
  at? : v.root.at? names = some t

theorem LeadsTo.find_eq (h : v.LeadsTo path names t) :
    v.find path = if path.isTooLong then .error .nameTooLong else .ok (names, t) := by
  rw [find, if_neg h.ne_nil, h.follow]
  simp only [h.at?]

theorem LeadsTo.place_eq (h : v.LeadsTo path names t) (hshort : path.isTooLong = false) :
    v.system.place path = .ok t := by
  simp only [system, h.find_eq, hshort]
  rfl

theorem LeadsTo.content_eq (h : v.LeadsTo path names .file) :
    v.system.content path = if path.isTooLong then .error .nameTooLong else v.content names := by
  simp only [system, h.find_eq]
  cases path.isTooLong <;> rfl

theorem exists_find_eq_error (h : path.isTooLong = true) : ∃ fault, v.find path = .error fault := by
  by_cases hnil : path.bytes = []
  · exact ⟨_, if_pos hnil⟩
  · exact ⟨_, (if_neg hnil).trans (if_pos h)⟩

theorem leadsTo_of_find (h : v.find path = .ok (names, t)) : v.LeadsTo path names t := by
  unfold find at h
  split at h
  · cases h
  next hne =>
  split at h
  · cases h
  split at h
  · cases h
  next place hfollow =>
  split at h
  · cases h
  next here hat =>
  obtain ⟨rfl, rfl⟩ := Prod.mk.inj (Except.ok.inj h)
  exact ⟨hne, hfollow, hat⟩

/-- Below a directory the path is longer by a name. -/
theorem LeadsTo.join {entries : List (FileName × FileTree)} (h : v.LeadsTo path names (.dir entries))
    (hwell : (FileTree.dir entries).WellFormed) {entry : FileName × FileTree} (hm : entry ∈ entries) :
    v.LeadsTo (path.join entry.1) (names ++ [entry.1]) entry.2 := by
  cases hwell with
  | dir hnodup hnames _ =>
    have hname := hnames entry hm
    refine ⟨Path.bytes_join_ne_nil h.ne_nil _, ?_, ?_⟩
    · rw [Path.isAbsolute_join h.ne_nil]
      have hfollow := h.follow
      -- An empty part at the end has been followed as well, and it stayed where it was.
      obtain ⟨front, hfront | hfront, hjoin⟩ := Path.exists_parts_join h.ne_nil hname.slash_not_mem
      · rw [hfront] at hfollow
        rw [hjoin]
        exact follow_append_name hname hfollow h.at?
      · rw [hfront] at hfollow
        rw [hjoin]
        exact follow_append_name hname (follow_of_append_nil hfollow) h.at?
    · rw [FileTree.at?_append_singleton, h.at?]
      exact Keyed.lookup_of_mem hnodup hm

theorem leadsTo_dotted {entries : List (FileName × FileTree)} {name : FileName}
    (hroot : v.root.at? v.workingDirectory = some (.dir entries)) (hname : Path.IsName name)
    (hentry : entries.lookup name = some t) (n : Nat) :
    v.LeadsTo (Path.dotted n name) (v.workingDirectory ++ [name]) t := by
  have hdots : v.follow v.workingDirectory (List.replicate n [Path.dot]) = .ok v.workingDirectory := by
    induction n with
    | zero => rfl
    | succ n ih =>
      rw [List.replicate_succ, follow, hroot]
      exact ih
  refine ⟨fun hnil => ?_, ?_, ?_⟩
  · obtain rfl := (List.append_eq_nil_iff.mp hnil).2
    cases hname.not_stays
  · rw [Path.isAbsolute_dotted n hname.slash_not_mem, Path.parts_dotted n hname.slash_not_mem]
    exact follow_append_name hname hdots hroot
  · rw [FileTree.at?_append_singleton, hroot]
    exact hentry

theorem LeadsTo.exists_of_mem_walk (h : v.LeadsTo path names t) (hwell : t.WellFormed)
    {entry : WalkEntry} (hm : .ok entry ∈ t.walk path) (hfile : entry.isFile = true) :
    ∃ place, v.LeadsTo entry.path place .file := by
  induction t using FileTree.induction generalizing path names with
  | file =>
    obtain rfl := Except.ok.inj (List.mem_singleton.mp hm)
    exact ⟨names, h⟩
  | special =>
    obtain rfl := Except.ok.inj (List.mem_singleton.mp hm)
    cases hfile
  | closed fault =>
    simp only [FileTree.walk, List.mem_cons, List.not_mem_nil, reduceCtorEq, or_false] at hm
    obtain rfl := Except.ok.inj hm
    cases hfile
  | dir entries ih =>
    rw [FileTree.walk, List.mem_cons] at hm
    obtain hm | hm := hm
    · obtain rfl := Except.ok.inj hm
      cases hfile
    -- Nothing below the directory is met if its path is too long already.
    split at hm
    · cases List.mem_singleton.mp hm
    obtain ⟨below, hbelow, hm⟩ := FileTree.mem_walkEntries.mp hm
    exact ih below hbelow (h.join hwell hbelow) (hwell.of_mem hbelow) hm

/-- A file that is met on a walk is a file of the tree, and its content is read under the path under which
it is met, unless that path is too long. -/
theorem exists_content_of_mem_walk (hroot : v.root.WellFormed) (hplace : v.system.place path = .ok t)
    {entry : WalkEntry} (hm : .ok entry ∈ t.walk path) (hfile : entry.isFile = true) :
    ∃ place, v.root.at? place = some .file ∧
      v.system.content entry.path =
        if entry.path.isTooLong then .error .nameTooLong else v.content place := by
  obtain ⟨names, hleads⟩ : ∃ names, v.LeadsTo path names t := by
    cases hfind : v.find path with
    | error fault => simp [system, hfind, Except.map] at hplace
    | ok found =>
      obtain rfl : found.2 = t := by simpa [system, hfind, Except.map] using hplace
      exact ⟨found.1, leadsTo_of_find hfind⟩
  obtain ⟨place, hentry⟩ := hleads.exists_of_mem_walk (hroot.of_at? hleads.at?) hm hfile
  exact ⟨place, hentry.at?, hentry.content_eq⟩

end Volume

end QueryDoc
