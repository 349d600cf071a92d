import AtomixJS.Results.ImportPath

/-!
# The hash of a file

A file is known by the place where it stands below the root.  `hashFilePath` takes the root
out of the text of the file, and for that it makes both paths absolute.  A relative one is
normalised on the way, an absolute one stays as it is written.  So the hash is that of the
place as long as the absolute paths are in normal form, and the relative ones keep neither
a slash at their end nor lose a backslash.
-/

namespace AtomixJS.Compiler

open PosixPath

/-- What `process.cwd()` returns. -/
def IsWorkingDirectory (cwd : JSString) : Prop :=
  isAbsolute cwd = true ∧ absolute (resolve cwd) = cwd

/-- A path that is made the normal form of its location: either it is that already, or it is
relative, without a slash at the end that stays and without a backslash in the normal form. -/
def Clean (cwd path : JSString) : Prop :=
  if isAbsolute path = true then path = absolute (locate cwd path)
  else ¬ (endsInSlash path = true ∧ locate cwd path ≠ []) ∧ 92 ∉ absolute (locate cwd path)

/-- Ways to write the files below a directory and the directory itself, among them the normal
form of each location. -/
structure Spellings (cwd : JSString) (directory : List JSString) (files roots : Set JSString) :
    Prop where
  file : ∀ f ∈ files, ∃ segments, segments ≠ [] ∧ locate cwd f = directory ++ segments
  root : ∀ r ∈ roots, locate cwd r = directory
  fileNormal : ∀ f ∈ files, absolute (locate cwd f) ∈ files
  rootNormal : absolute directory ∈ roots
  nonempty : files.Nonempty

/-- Files are told apart by their locations and by nothing else. -/
def IdentifiedByLocation (cwd pre : JSString) (files roots : Set JSString) : Prop :=
  (∀ f ∈ files, ∀ f' ∈ files, ∀ r ∈ roots, ∀ r' ∈ roots, locate cwd f = locate cwd f' →
    hashFilePath cwd f r pre = hashFilePath cwd f' r' pre) ∧
  ∀ f ∈ files, ∀ f' ∈ files, ∀ r ∈ roots, ∀ r' ∈ roots, locate cwd f ≠ locate cwd f' →
    fileSignature cwd f r pre ≠ fileSignature cwd f' r' pre

variable {cwd path pre : JSString} {directory segments : List JSString} {files roots : Set JSString}

/-! ## Backslashes -/

theorem not_mem_replaceBackslashes (s : JSString) : 92 ∉ replaceBackslashes s := by
  intro hmem
  obtain ⟨c, -, hc⟩ := List.mem_map.mp hmem
  split at hc
  · exact absurd hc (by decide)
  · next hne => exact hne hc

theorem replaceBackslashes_eq_iff (s : JSString) : replaceBackslashes s = s ↔ 92 ∉ s := by
  constructor
  · intro heq
    rw [← heq]
    exact not_mem_replaceBackslashes s
  · intro hmem
    have hsame : ∀ c ∈ s, (if c = 92 then slash else c) = id c := by
      intro c hc
      have hother : c ≠ 92 := by
        rintro rfl
        exact hmem hc
      rw [if_neg hother, id]
    exact (List.map_congr_left hsame).trans (List.map_id s)

/-! ## Paths that are made absolute -/

/-- A relative path is normalised, except for a slash at its end. -/
theorem makeAbsolute_relative (hcwd : IsWorkingDirectory cwd) (hrel : ¬ isAbsolute path = true) :
    makeAbsolute cwd path = replaceBackslashes (absolute (locate cwd path) ++
      if endsInSlash path = true ∧ locate cwd path ≠ [] then [slash] else []) := by
  obtain ⟨habs, hnormal⟩ := hcwd
  have hne : cwd ≠ [] := by
    rintro rfl
    cases habs
  unfold makeAbsolute locate
  rw [if_neg hrel, if_neg hrel]
  congr 1
  by_cases hnil : path = []
  · -- the working directory itself
    have hsegments : resolve (cwd ++ [slash]) = resolve cwd := by
      unfold resolve
      rw [isAbsolute_append hne, List.splitOn_append_cons_self, walk_append]
      rfl
    have hjoin : join [cwd, []] = normalize cwd := by simp [join, hne, List.intercalate]
    have hends : ¬ (endsInSlash cwd = true ∧ resolve cwd ≠ []) := by
      rintro ⟨hslash, hroot⟩
      obtain ⟨-, -, hlast⟩ := intercalate_ends hroot fun _ h => mem_resolve h
      rw [← hnormal, absolute, if_neg hroot, endsInSlash,
        ← List.singleton_append] at hslash
      rw [List.getLast?_append_of_ne_nil _ (intercalate_ends hroot fun _ h => mem_resolve h).1]
        at hslash
      rw [endsInSlash, hslash] at hlast
      cases hlast
    rw [hnil, hsegments, hjoin, normalize_absolute habs, if_neg hends, if_neg fun h => by cases h.1]
  · have hends : endsInSlash (cwd ++ slash :: path) = endsInSlash path := by
      unfold endsInSlash
      rw [List.getLast?_append_of_ne_nil _ (List.cons_ne_nil _ _), ← List.singleton_append,
        List.getLast?_append_of_ne_nil _ hnil]
    rw [join_pair hne hnil, normalize_absolute ((isAbsolute_append hne _).trans habs), hends]

theorem makeAbsolute_eq_iff (hcwd : IsWorkingDirectory cwd) :
    makeAbsolute cwd path = absolute (locate cwd path) ↔ Clean cwd path := by
  unfold Clean
  by_cases habs : isAbsolute path = true
  · rw [if_pos habs, makeAbsolute, if_pos habs]
  rw [if_neg habs, makeAbsolute_relative hcwd habs]
  constructor
  · intro heq
    have hnone : ¬ (endsInSlash path = true ∧ locate cwd path ≠ []) := by
      intro hslash
      rw [if_pos hslash] at heq
      have hlength := congrArg List.length heq
      simp [replaceBackslashes] at hlength
    rw [if_neg hnone, List.append_nil, replaceBackslashes_eq_iff] at heq
    exact ⟨hnone, heq⟩
  · rintro ⟨hnone, hbackslash⟩
    rw [if_neg hnone, List.append_nil, replaceBackslashes_eq_iff]
    exact hbackslash

/-- The text is no shorter than the normal form.  If it has the length and the units of that,
the path is clean. -/
theorem makeAbsolute_shortest (hcwd : IsWorkingDirectory cwd) :
    (absolute (locate cwd path)).length ≤ (makeAbsolute cwd path).length ∧
      ((absolute (locate cwd path)).Perm (makeAbsolute cwd path) → Clean cwd path) := by
  by_cases habs : isAbsolute path = true
  · obtain ⟨hle, heq⟩ := absolute_resolve_shortest habs
    have hlocate : locate cwd path = resolve path := by rw [locate, if_pos habs]
    rw [makeAbsolute, if_pos habs, Clean, if_pos habs, hlocate]
    exact ⟨hle, fun hperm => heq hperm.length_eq.symm⟩
  · rw [makeAbsolute_relative hcwd habs, Clean, if_neg habs]
    refine ⟨by simp [replaceBackslashes], fun hperm => ?_⟩
    have hlength := hperm.length_eq
    refine ⟨fun hslash => ?_, fun hmem => not_mem_replaceBackslashes _ (hperm.mem_iff.mp hmem)⟩
    rw [if_pos hslash] at hlength
    simp [replaceBackslashes] at hlength

/-! ## Taking the root out -/

/-- Either the text stays, or the root is among its units. -/
theorem removeFirst_cases (root file : JSString) :
    removeFirst root file = file ∨ file.Perm (root ++ removeFirst root file) := by
  induction file with
  | nil => exact .inl rfl
  | cons c file ih =>
    unfold removeFirst
    split
    · next hprefix =>
      right
      conv_lhs => rw [List.prefix_append_drop hprefix]
    · rcases ih with hsame | hperm
      · exact .inl (by rw [hsame])
      · exact .inr ((hperm.cons c).trans List.perm_middle.symm)

theorem removeFirst_append {root : JSString} (hne : root ≠ []) (rest : JSString) :
    removeFirst root (root ++ rest) = rest := by
  obtain ⟨c, tail, rfl⟩ := List.exists_cons_of_ne_nil hne
  rw [List.cons_append, removeFirst, ← List.cons_append, if_pos (List.prefix_append _ _),
    List.drop_left]

/-! ## Spellings -/

theorem absolute_ne_nil (segments : List JSString) : absolute segments ≠ [] := by
  unfold absolute
  split <;> exact List.cons_ne_nil _ _

theorem makeAbsolute_absolute (segments : List JSString) :
    makeAbsolute cwd (absolute segments) = absolute segments :=
  if_pos (isAbsolute_absolute segments)

/-- Behind a clean root a clean file leaves its place below that. -/
theorem fileSignature_of_clean (hcwd : IsWorkingDirectory cwd) {f r : JSString}
    (hfile : Clean cwd f) (hroot : Clean cwd r) (hlocate : locate cwd f = locate cwd r ++ segments)
    (hne : segments ≠ []) :
    fileSignature cwd f r pre = pre ++ below (locate cwd r) segments := by
  rw [fileSignature, (makeAbsolute_eq_iff hcwd).mpr hfile, (makeAbsolute_eq_iff hcwd).mpr hroot,
    hlocate, absolute_append hne, removeFirst_append (absolute_ne_nil _)]

/-- The place below the root is shorter than the path. -/
theorem below_lt_absolute (hne : segments ≠ []) :
    (below directory segments).length < (absolute (directory ++ segments)).length := by
  have hpos := List.length_pos_of_ne_nil (absolute_ne_nil directory)
  rw [absolute_append hne, List.length_append]
  omega

/-- A file that leaves its place behind the normal form of the root is clean. -/
theorem clean_of_file (hcwd : IsWorkingDirectory cwd) (hlocate : locate cwd path = directory ++ segments)
    (hne : segments ≠ [])
    (h : removeFirst (absolute directory) (makeAbsolute cwd path) = below directory segments) :
    Clean cwd path := by
  obtain ⟨hle, hclean⟩ : (absolute (locate cwd path)).length ≤ (makeAbsolute cwd path).length ∧
      ((absolute (locate cwd path)).Perm (makeAbsolute cwd path) → Clean cwd path) :=
    makeAbsolute_shortest hcwd
  rw [hlocate] at hle hclean
  have hlt : (below directory segments).length < (absolute (directory ++ segments)).length :=
    below_lt_absolute hne
  rcases removeFirst_cases (absolute directory) (makeAbsolute cwd path) with hsame | hperm
  · rw [← hsame, h] at hle
    omega
  · rw [h, ← absolute_append hne] at hperm
    exact hclean hperm.symm

/-- A root behind which the normal form of a file leaves its place is clean. -/
theorem clean_of_root (hcwd : IsWorkingDirectory cwd) (hlocate : locate cwd path = directory)
    (hne : segments ≠ [])
    (h : removeFirst (makeAbsolute cwd path) (absolute (directory ++ segments)) =
      below directory segments) : Clean cwd path := by
  have hlt : (below directory segments).length < (absolute (directory ++ segments)).length :=
    below_lt_absolute hne
  rcases removeFirst_cases (makeAbsolute cwd path) (absolute (directory ++ segments)) with
    hsame | hperm
  · rw [h] at hsame
    rw [hsame] at hlt
    exact absurd hlt (Nat.lt_irrefl _)
  · rw [h, absolute_append hne, List.perm_append_right_iff] at hperm
    refine (makeAbsolute_shortest hcwd).2 ?_
    rwa [hlocate]

/-- **Spellings.**  If all paths are clean, a file is known by its location and by nothing
else.  If it is, all paths are clean, or the text of a file collides with the one of its normal
form. -/
theorem identifiedByLocation_iff (hcwd : IsWorkingDirectory cwd)
    (h : Spellings cwd directory files roots) (pre : JSString) :
    ((∀ f ∈ files, Clean cwd f) ∧ (∀ r ∈ roots, Clean cwd r) →
      IdentifiedByLocation cwd pre files roots) ∧
    (IdentifiedByLocation cwd pre files roots →
      ((∀ f ∈ files, Clean cwd f) ∧ ∀ r ∈ roots, Clean cwd r) ∨
      ∃ f ∈ files, ∃ r ∈ roots, Collides (fileSignature cwd f r pre)
        (fileSignature cwd (absolute (locate cwd f)) (absolute directory) pre)) := by
  constructor
  · rintro ⟨hfiles, hroots⟩
    have hsignature : ∀ f ∈ files, ∀ r ∈ roots, ∃ segments, segments ≠ [] ∧
        locate cwd f = directory ++ segments ∧
        fileSignature cwd f r pre = pre ++ below directory segments := by
      intro f hf r hr
      obtain ⟨segments, hne, hlocate⟩ := h.file f hf
      refine ⟨segments, hne, hlocate, ?_⟩
      rw [← h.root r hr] at hlocate ⊢
      exact fileSignature_of_clean hcwd (hfiles f hf) (hroots r hr) hlocate hne
    constructor
    · intro f hf f' hf' r hr r' hr' hsame
      obtain ⟨segments, -, hlocate, htext⟩ := hsignature f hf r hr
      obtain ⟨segments', -, hlocate', htext'⟩ := hsignature f' hf' r' hr'
      rw [hlocate, hlocate', List.append_cancel_left_eq] at hsame
      rw [hashFilePath, hashFilePath, htext, htext', hsame]
    · intro f hf f' hf' r hr r' hr' hother heq
      obtain ⟨segments, hne, hlocate, htext⟩ := hsignature f hf r hr
      obtain ⟨segments', hne', hlocate', htext'⟩ := hsignature f' hf' r' hr'
      have hplace : IsLocation segments := fun s hs =>
        isLocation_locate hcwd.1 s (hlocate ▸ List.mem_append_right directory hs)
      have hplace' : IsLocation segments' := fun s hs =>
        isLocation_locate hcwd.1 s (hlocate' ▸ List.mem_append_right directory hs)
      rw [htext, htext', List.append_cancel_left_eq, below_injective hplace hplace' hne hne'] at heq
      exact hother (by rw [hlocate, hlocate', heq])
  · rintro ⟨hsame, -⟩
    by_cases hcollides : ∃ f ∈ files, ∃ r ∈ roots, Collides (fileSignature cwd f r pre)
        (fileSignature cwd (absolute (locate cwd f)) (absolute directory) pre)
    · exact .inr hcollides
    refine .inl ?_
    -- without a collision the texts are the same, too
    have htext : ∀ f ∈ files, ∀ r ∈ roots, fileSignature cwd f r pre =
        fileSignature cwd (absolute (locate cwd f)) (absolute directory) pre := by
      intro f hf r hr
      have hhash := hsame f hf _ (h.fileNormal f hf) r hr _ h.rootNormal
        (locate_absolute (isLocation_locate hcwd.1)).symm
      by_contra hne
      exact hcollides ⟨f, hf, r, hr, hne, hhash⟩
    have hnormal : ∀ f ∈ files, ∀ r ∈ roots, ∀ segments, segments ≠ [] →
        locate cwd f = directory ++ segments →
        removeFirst (makeAbsolute cwd r) (makeAbsolute cwd f) = below directory segments := by
      intro f hf r hr segments hne hlocate
      have heq := htext f hf r hr
      unfold fileSignature at heq
      rw [List.append_cancel_left_eq, makeAbsolute_absolute, makeAbsolute_absolute, hlocate,
        absolute_append hne, removeFirst_append (absolute_ne_nil _)] at heq
      exact heq
    constructor
    · intro f hf
      obtain ⟨segments, hne, hlocate⟩ := h.file f hf
      have heq := hnormal f hf _ h.rootNormal segments hne hlocate
      rw [makeAbsolute_absolute] at heq
      exact clean_of_file hcwd hlocate hne heq
    · intro r hr
      obtain ⟨f, hf⟩ := h.nonempty
      obtain ⟨segments, hne, hlocate⟩ := h.file f hf
      have hplace : locate cwd (absolute (locate cwd f)) = directory ++ segments :=
        (locate_absolute (isLocation_locate hcwd.1)).trans hlocate
      have heq := hnormal _ (h.fileNormal f hf) r hr segments hne hplace
      rw [makeAbsolute_absolute, hlocate] at heq
      exact clean_of_root hcwd (h.root r hr) hne heq

/-- The file `a.js` by one name, and its directory by two. -/
theorem identifiedByLocation_iff_example :
    IdentifiedByLocation (jsString "/w") (jsString "@program")
      {jsString "/w/a.js"} {jsString "/w", jsString "."} := by
  have hspellings : Spellings (jsString "/w") [jsString "w"] {jsString "/w/a.js"}
      {jsString "/w", jsString "."} := by
    refine ⟨?_, ?_, ?_, ?_, ?_⟩
    · rintro f rfl
      exact ⟨[jsString "a.js"], List.cons_ne_nil _ _, rfl⟩
    · rintro r (rfl | rfl) <;> rfl
    · rintro f rfl
      rfl
    · exact .inl rfl
    · exact ⟨_, rfl⟩
  refine (identifiedByLocation_iff ⟨rfl, rfl⟩ hspellings _).1 ⟨?_, ?_⟩
  · rintro f rfl
    exact rfl
  · rintro r (rfl | rfl)
    · exact rfl
    · exact ⟨by decide, by decide⟩

/-- A slash at the end of the root changes the hash. -/
theorem identifiedByLocation_root_slash :
    locate (jsString "/w") (jsString "/w/") = locate (jsString "/w") (jsString "/w") ∧
      locate (jsString "/w") (jsString "/w/a.js") =
        locate (jsString "/w") (jsString "/w") ++ [jsString "a.js"] ∧
      hashFilePath (jsString "/w") (jsString "/w/a.js") (jsString "/w/") (jsString "@program") ≠
        hashFilePath (jsString "/w") (jsString "/w/a.js") (jsString "/w") (jsString "@program") := by
  decide

end AtomixJS.Compiler
