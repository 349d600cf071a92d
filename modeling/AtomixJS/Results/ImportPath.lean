import AtomixJS.Compiler.Transform

/-!
# The paths of imports

The hash that an import is compiled to, and the hash of the file that it names.
Both come from a path from which the root is taken out.  For its own file the
compiler starts from the path it was given; for an import it starts from the
*base name* of the importing file, as if that were a directory of the working
directory.
-/

namespace AtomixJS.Compiler

open PosixPath

/-- The path whose hash an import of `source` in the file `input` gets. -/
def lookedUpPath (cwd input source : JSString) : JSString :=
  replaceBackslashes (join [cwd, basename input, source])

/-- The path of the file that is meant: `source` seen from the directory of
`input`. -/
def importedPath (cwd input source : JSString) : JSString :=
  if isAbsolute input then join [dirname input, source]
  else replaceBackslashes (join [cwd, dirname input, source])

/-- Two texts with one hash. -/
def Collides (s s' : JSString) : Prop := s ≠ s' ∧ hashString s = hashString s'

variable {cwd input source : JSString}

theorem isAbsolute_of_dot (hsource : source.head? = some dot) : isAbsolute source = false := by
  unfold isAbsolute
  rw [hsource]
  rfl

theorem ne_nil_of_head {s : JSString} {c : UInt16} (h : s.head? = some c) : s ≠ [] := by
  rintro rfl
  cases h

/-- What the transformation hashes. -/
theorem makeAbsolute_sourcePath (hcwd : cwd ≠ []) (hsource : source.head? = some dot) :
    makeAbsolute cwd (join [basename input, source]) = lookedUpPath cwd input source := by
  have hne := ne_nil_of_head hsource
  have hrel := isAbsolute_of_dot hsource
  have hbase := isAbsolute_basename input
  have hjoined : isAbsolute (join [basename input, source]) = false := by
    by_cases hnil : basename input = []
    · have hone : join [basename input, source] = normalize source := by
        simp [join, hnil, hne, List.intercalate]
      rw [hone, isAbsolute_normalize hne, hrel]
    · rw [isAbsolute_join hnil hne, hbase]
  unfold makeAbsolute lookedUpPath
  rw [hjoined, join_join hcwd hne hbase hrel]
  rfl

/-- What the compiler hashes when it compiles the file that is meant. -/
theorem makeAbsolute_importedPath (hcwd : cwd ≠ []) (hsource : source.head? = some dot) :
    makeAbsolute cwd (join [dirname input, source]) = importedPath cwd input source := by
  have hne := ne_nil_of_head hsource
  obtain ⟨hdir, habs⟩ := dirname_cases input
  have hjoined : isAbsolute (join [dirname input, source]) = isAbsolute input := by
    rw [isAbsolute_join hdir hne, habs]
  unfold makeAbsolute importedPath
  rw [hjoined]
  cases hinput : isAbsolute input with
  | true => rfl
  | false =>
      rw [hinput] at habs
      rw [join_join hcwd hne habs (isAbsolute_of_dot hsource)]

end AtomixJS.Compiler
