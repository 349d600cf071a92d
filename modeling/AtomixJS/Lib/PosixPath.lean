import Mathlib

/-!
# POSIX paths

The functions on paths that a runtime library offers, on texts of 16-bit units.
Normalising a path runs through its segments with a stack: an empty segment and
`.` do nothing, `..` takes the top off, anything else goes on top.  In a relative
path a `..` that has nothing to take off stays.

The segments of a normal form act on a stack as those of the path itself do
(`walk_resolve`).  Hence joining a path to a normalised relative one is joining it
to the relative path as it was (`join_join`).

Of the absolute paths to one location the normal form without a slash at its end is
the shortest (`absolute_resolve_shortest`): its segments are some of those of each
other path, and fewer of them.
-/

namespace PosixPath

abbrev Text := List UInt16

def slash : UInt16 := 47

def dot : UInt16 := 46

/-! ## Definitions -/

/-- A segment and the stack of the segments before it, the last one on top. -/
def push (allowAboveRoot : Bool) (stack : List Text) (segment : Text) : List Text :=
  if segment = [] ∨ segment = [dot] then stack
  else if segment = [dot, dot] then
    match stack with
    | [] => if allowAboveRoot then [[dot, dot]] else []
    | top :: below =>
      if top = [dot, dot] then (if allowAboveRoot then [dot, dot] :: stack else stack) else below
  else segment :: stack

def walk (allowAboveRoot : Bool) (stack : List Text) (segments : List Text) : List Text :=
  segments.foldl (push allowAboveRoot) stack

def isAbsolute (path : Text) : Bool := path.head? = some slash

def endsInSlash (path : Text) : Bool := path.getLast? = some slash

/-- The segments of the normal form. -/
def resolve (path : Text) : List Text :=
  (walk (!isAbsolute path) [] (path.splitOn slash)).reverse

def normalize (path : Text) : Text :=
  if path = [] then [dot]
  else
    let body := [slash].intercalate (resolve path)
    if body = [] then
      if isAbsolute path then [slash] else if endsInSlash path then [dot, slash] else [dot]
    else
      (if isAbsolute path then [slash] else []) ++ body ++ (if endsInSlash path then [slash] else [])

/-- The parts that are not empty with slashes between them, normalised. -/
def join (parts : List Text) : Text :=
  normalize ([slash].intercalate (parts.filter (· ≠ [])))

/-- The last segment, slashes behind it aside. -/
def basename (path : Text) : Text :=
  (((path.rdropWhile (· = slash)).splitOn slash).getLast?).getD []

/-- What stands before the last segment and the slash in front of that. -/
def dirname (path : Text) : Text :=
  let upTo := (path.rdropWhile (· = slash)).rdropWhile (· ≠ slash)
  if upTo.length ≤ 1 then (if isAbsolute path then [slash] else [dot])
  else if upTo = [slash, slash] then upTo
  else upTo.dropLast

/-! ## Segments -/

/-- A segment that goes on the stack and comes off again. -/
def IsName (segment : Text) : Prop := segment ≠ [] ∧ segment ≠ [dot] ∧ segment ≠ [dot, dot]

theorem push_name {segment : Text} (h : IsName segment) (allow : Bool) (stack : List Text) :
    push allow stack segment = segment :: stack := by
  unfold push
  rw [if_neg (not_or.mpr ⟨h.1, h.2.1⟩), if_neg h.2.2]

theorem push_up (allow : Bool) (top : Text) (below : List Text) (h : top ≠ [dot, dot]) :
    push allow (top :: below) [dot, dot] = below := by
  simp [push, h]

theorem walk_append (allow : Bool) (stack : List Text) (xs ys : List Text) :
    walk allow stack (xs ++ ys) = walk allow (walk allow stack xs) ys := List.foldl_append

/-- What is on the stack when a relative path is resolved. -/
theorem mem_walk {segments : List Text} {allow : Bool} {segment : Text}
    (h : segment ∈ walk allow [] segments) :
    segment ∈ segments ∧ (IsName segment ∨ segment = [dot, dot]) := by
  induction segments using List.reverseRecOn with
  | nil => cases h
  | append_singleton segments last ih =>
      rw [walk_append] at h
      change segment ∈ push allow (walk allow [] segments) last at h
      generalize walk allow [] segments = stack at h ih
      have hold : segment ∈ stack →
          segment ∈ segments ++ [last] ∧ (IsName segment ∨ segment = [dot, dot]) :=
        fun hmem => ⟨List.mem_append_left _ (ih hmem).1, (ih hmem).2⟩
      unfold push at h
      split at h
      · exact hold h
      · next hreal =>
          split at h
          · next hup =>
              have hlast : segment = [dot, dot] →
                  segment ∈ segments ++ [last] ∧ (IsName segment ∨ segment = [dot, dot]) := by
                intro heq
                refine ⟨?_, .inr heq⟩
                rw [heq, hup]
                exact List.mem_append_right _ (List.mem_singleton_self _)
              split at h
              · split at h
                · exact hlast (List.mem_singleton.mp h)
                · cases h
              · split at h
                · split at h
                  · rcases List.mem_cons.mp h with heq | hmem
                    · exact hlast heq
                    · exact hold hmem
                  · exact hold h
                · exact hold (List.mem_cons_of_mem _ h)
          · next hup =>
              rcases List.mem_cons.mp h with rfl | hmem
              · rw [not_or] at hreal
                exact ⟨List.mem_append_right _ (List.mem_singleton_self _),
                  .inl ⟨hreal.1, hreal.2, hup⟩⟩
              · exact hold hmem

/-- The normal form of a relative path acts on a stack as the path does. -/
theorem walk_resolve (allow : Bool) (stack : List Text) (segments : List Text) :
    walk allow stack (walk true [] segments).reverse = walk allow stack segments := by
  induction segments using List.reverseRecOn with
  | nil => rfl
  | append_singleton segments last ih =>
      rw [walk_append, walk_append, ← ih]
      have hform := fun segment (h : segment ∈ walk true [] segments) => (mem_walk h).2
      generalize walk true [] segments = form at hform
      change walk allow stack (push true form last).reverse =
        push allow (walk allow stack form.reverse) last
      have hsnoc : walk allow stack (last :: form).reverse =
          push allow (walk allow stack form.reverse) last := by
        rw [List.reverse_cons, walk_append]
        rfl
      unfold push
      by_cases hskip : last = [] ∨ last = [dot]
      · rw [if_pos hskip, if_pos hskip]
      rw [if_neg hskip, if_neg hskip]
      by_cases hup : last = [dot, dot]
      · rw [if_pos hup, if_pos hup]
        cases form with
        | nil => simp [push, walk]
        | cons top below =>
            by_cases htop : top = [dot, dot]
            · simpa [hup, htop, push] using hsnoc
            · -- a name that went on the stack comes off again
              have hname : IsName top :=
                (hform top List.mem_cons_self).resolve_right htop
              simp only [if_neg htop]
              rw [List.reverse_cons, walk_append]
              change _ = match push allow (walk allow stack below.reverse) top with
                | [] => _
                | top' :: below' => _
              rw [push_name hname]
              simp [htop]
      · rw [if_neg hup, if_neg hup, List.reverse_cons, walk_append]
        change push allow (walk allow stack form.reverse) last = _
        rw [push_name ⟨(not_or.mp hskip).1, (not_or.mp hskip).2, hup⟩]

theorem not_mem_of_mem_splitOn {path segment : Text} (h : segment ∈ path.splitOn slash) :
    slash ∉ segment := by
  induction path generalizing segment with
  | nil =>
      rw [List.splitOn_nil, List.mem_singleton] at h
      rw [h]
      exact List.not_mem_nil
  | cons c path ih =>
      rw [List.splitOn_cons_eq_if_modifyHead] at h
      split at h
      · rcases List.mem_cons.mp h with rfl | h
        · exact List.not_mem_nil
        · exact ih h
      · next hc =>
          cases hsplit : path.splitOn slash with
          | nil => rw [hsplit] at h; cases h
          | cons first rest =>
              rw [hsplit] at h ih
              rcases List.mem_cons.mp h with rfl | h
              · intro hmem
                rcases List.mem_cons.mp hmem with heq | hmem
                · exact hc (by simp [heq])
                · exact ih List.mem_cons_self hmem
              · exact ih (List.mem_cons_of_mem _ h)

/-- The segments of a normal form are not empty and hold no slash. -/
theorem mem_resolve {path segment : Text} (h : segment ∈ resolve path) :
    segment ≠ [] ∧ slash ∉ segment := by
  obtain ⟨hmem, hname⟩ := mem_walk (List.mem_reverse.mp h)
  refine ⟨?_, not_mem_of_mem_splitOn hmem⟩
  rcases hname with hname | rfl
  · exact hname.1
  · simp

/-! ## The text of a normal form -/

/-- Segments with slashes between them neither begin nor end in a slash. -/
theorem intercalate_ends {segments : List Text} (hne : segments ≠ [])
    (h : ∀ segment ∈ segments, segment ≠ [] ∧ slash ∉ segment) :
    [slash].intercalate segments ≠ [] ∧ isAbsolute ([slash].intercalate segments) = false ∧
      endsInSlash ([slash].intercalate segments) = false := by
  induction segments with
  | nil => exact absurd rfl hne
  | cons first rest ih =>
      obtain ⟨hfirst, hslash⟩ := h first List.mem_cons_self
      have hhead : ∀ tail : Text, isAbsolute (first ++ tail) = false := by
        intro tail
        cases first with
        | nil => exact absurd rfl hfirst
        | cons c first =>
            have hc : ¬ c = slash := fun heq => hslash (heq ▸ List.mem_cons_self)
            simp [isAbsolute, hc]
      have hlast : endsInSlash first = false := by
        unfold endsInSlash
        rw [decide_eq_false_iff_not]
        exact fun heq => hslash (List.mem_of_getLast? heq)
      cases rest with
      | nil =>
          have hsame : [slash].intercalate [first] = first := by simp [List.intercalate]
          rw [hsame]
          exact ⟨hfirst, by simpa using hhead [], hlast⟩
      | cons second rest =>
          obtain ⟨hne', _, hends⟩ := ih (List.cons_ne_nil _ _) fun s hs => h s (List.mem_cons_of_mem _ hs)
          rw [List.intercalate_cons_cons]
          refine ⟨by simp, ?_, ?_⟩
          · rw [List.append_assoc]
            exact hhead _
          · unfold endsInSlash at hends ⊢
            rwa [List.getLast?_append_of_ne_nil _ hne']

theorem normalize_ne_nil (path : Text) : normalize path ≠ [] := by
  unfold normalize
  split
  · simp
  · dsimp only
    split
    · split
      · simp
      · split <;> simp
    · simp_all

/-- The text of a relative path in normal form. -/
theorem normalize_relative {path : Text} (hne : path ≠ []) (hrel : isAbsolute path = false) :
    normalize path = (if resolve path = [] then [dot] else [slash].intercalate (resolve path)) ++
      (if endsInSlash path then [slash] else []) := by
  unfold normalize
  rw [if_neg hne]
  dsimp only
  by_cases hnil : resolve path = []
  · rw [hnil]
    by_cases hends : endsInSlash path = true <;> simp [hrel, hends, List.intercalate]
  · obtain ⟨hbody, _⟩ := intercalate_ends hnil fun _ h => mem_resolve h
    simp [hnil, hbody, hrel]

theorem isAbsolute_append {path : Text} (hne : path ≠ []) (tail : Text) :
    isAbsolute (path ++ tail) = isAbsolute path := by
  cases path with
  | nil => exact absurd rfl hne
  | cons c path => rfl

theorem isAbsolute_normalize {path : Text} (hne : path ≠ []) :
    isAbsolute (normalize path) = isAbsolute path := by
  cases habs : isAbsolute path with
  | true =>
      unfold normalize
      rw [if_neg hne]
      dsimp only
      split <;> simp [isAbsolute]
  | false =>
      rw [normalize_relative hne habs]
      by_cases hnil : resolve path = []
      · simp [hnil, isAbsolute, dot, slash]
      · obtain ⟨hbody, hrel, _⟩ := intercalate_ends hnil fun _ h => mem_resolve h
        rw [if_neg hnil, isAbsolute_append hbody, hrel]

theorem endsInSlash_normalize {path : Text} (hne : path ≠ []) (hrel : isAbsolute path = false) :
    endsInSlash (normalize path) = endsInSlash path := by
  rw [normalize_relative hne hrel]
  cases hends : endsInSlash path with
  | true => simp [endsInSlash]
  | false =>
      by_cases hnil : resolve path = []
      · simp [hnil, endsInSlash, dot, slash]
      · obtain ⟨_, _, hlast⟩ := intercalate_ends hnil fun _ h => mem_resolve h
        simpa [hnil] using hlast

/-- The segments of a relative path in normal form act as those of the path. -/
theorem walk_normalize {path : Text} (hne : path ≠ []) (hrel : isAbsolute path = false)
    (allow : Bool) (stack : List Text) :
    walk allow stack ((normalize path).splitOn slash) = walk allow stack (path.splitOn slash) := by
  have hempty : ∀ stack, walk allow stack [[]] = stack := fun stack => rfl
  have hresolve : walk allow stack (resolve path) = walk allow stack (path.splitOn slash) := by
    unfold resolve
    rw [hrel]
    exact walk_resolve allow stack _
  rw [normalize_relative hne hrel, ← hresolve]
  have hbody : walk allow stack ((if resolve path = [] then [dot] else
      [slash].intercalate (resolve path)).splitOn slash) = walk allow stack (resolve path) := by
    by_cases hnil : resolve path = []
    · rw [if_pos hnil, hnil]
      rfl
    · rw [if_neg hnil, List.splitOn_intercalate slash (fun s hs => (mem_resolve hs).2) hnil]
  by_cases hends : endsInSlash path = true
  · rw [if_pos hends, List.splitOn_append_cons_self, walk_append, hbody]
    exact hempty _
  · rw [if_neg hends, List.append_nil, hbody]

/-! ## Joining -/

theorem normalize_congr {path path' : Text} (hne : path ≠ []) (hne' : path' ≠ [])
    (habs : isAbsolute path = isAbsolute path') (hends : endsInSlash path = endsInSlash path')
    (hresolve : resolve path = resolve path') : normalize path = normalize path' := by
  unfold normalize
  rw [if_neg hne, if_neg hne', habs, hends, hresolve]

/-- A relative path may be normalised before it is appended. -/
theorem normalize_append_normalize {first path : Text} (hfirst : first ≠ []) (hne : path ≠ [])
    (hrel : isAbsolute path = false) :
    normalize (first ++ slash :: normalize path) = normalize (first ++ slash :: path) := by
  have hends : ∀ tail : Text, tail ≠ [] →
      endsInSlash (first ++ slash :: tail) = endsInSlash tail := by
    intro tail htail
    unfold endsInSlash
    rw [List.getLast?_append_of_ne_nil _ (List.cons_ne_nil _ _), ← List.singleton_append,
      List.getLast?_append_of_ne_nil _ htail]
  apply normalize_congr (by simp) (by simp)
  · rw [isAbsolute_append hfirst, isAbsolute_append hfirst]
  · rw [hends _ (normalize_ne_nil path), hends _ hne, endsInSlash_normalize hne hrel]
  · unfold resolve
    rw [isAbsolute_append hfirst, isAbsolute_append hfirst, List.splitOn_append_cons_self,
      List.splitOn_append_cons_self, walk_append, walk_append, walk_normalize hne hrel]

theorem join_pair {first second : Text} (hfirst : first ≠ []) (hsecond : second ≠ []) :
    join [first, second] = normalize (first ++ slash :: second) := by
  simp [join, hfirst, hsecond, List.intercalate]

/-- A join with an absolute path in front is absolute. -/
theorem isAbsolute_join {first second : Text} (hfirst : first ≠ []) (hsecond : second ≠ []) :
    isAbsolute (join [first, second]) = isAbsolute first := by
  rw [join_pair hfirst hsecond, isAbsolute_normalize (by simp), isAbsolute_append hfirst]

/-- Joining relative paths before a path is put in front changes nothing. -/
theorem join_join {first second third : Text} (hfirst : first ≠ []) (hthird : third ≠ [])
    (hsecond : isAbsolute second = false) (hrel : isAbsolute third = false) :
    join [first, join [second, third]] = join [first, second, third] := by
  by_cases hnil : second = []
  · have htwo : join [second, third] = normalize third := by
      simp [join, hnil, hthird, List.intercalate]
    have hthree : join [first, second, third] = join [first, third] := by
      simp [join, hnil, hfirst, hthird]
    rw [htwo, hthree, join_pair hfirst (normalize_ne_nil third), join_pair hfirst hthird,
      normalize_append_normalize hfirst hthird hrel]
  · have hthree : join [first, second, third] =
        normalize (first ++ slash :: (second ++ slash :: third)) := by
      simp [join, hfirst, hnil, hthird, List.intercalate]
    rw [join_pair hnil hthird, hthree, join_pair hfirst (normalize_ne_nil _)]
    apply normalize_append_normalize hfirst (by simp)
    rw [isAbsolute_append hnil, hsecond]

/-! ## Directories -/

theorem isAbsolute_basename (path : Text) : isAbsolute (basename path) = false := by
  have hslash : slash ∉ basename path := by
    unfold basename
    cases hlast : ((path.rdropWhile (· = slash)).splitOn slash).getLast? with
    | none => exact List.not_mem_nil
    | some segment => exact not_mem_of_mem_splitOn (List.mem_of_getLast? hlast)
  unfold isAbsolute
  rw [decide_eq_false_iff_not]
  exact fun heq => hslash (List.mem_of_head? heq)

theorem dirname_cases (path : Text) : dirname path ≠ [] ∧
    isAbsolute (dirname path) = isAbsolute path := by
  have hprefix : (path.rdropWhile (· = slash)).rdropWhile (· ≠ slash) <+: path :=
    (List.rdropWhile_prefix _ _).trans (List.rdropWhile_prefix _ _)
  unfold dirname
  generalize (path.rdropWhile (· = slash)).rdropWhile (· ≠ slash) = upTo at hprefix
  obtain ⟨tail, rfl⟩ := hprefix
  dsimp only
  split
  · split
    · next habs => exact ⟨by simp, by rw [habs]; rfl⟩
    · next habs =>
        rw [Bool.not_eq_true] at habs
        exact ⟨by simp, by rw [habs]; rfl⟩
  · next hlong =>
      cases upTo with
      | nil => simp at hlong
      | cons first rest =>
          cases rest with
          | nil => simp at hlong
          | cons second rest =>
              split
              · next heq =>
                  rw [heq]
                  exact ⟨by simp, rfl⟩
              · exact ⟨by simp, rfl⟩

/-! ## Locations -/

/-- The normal form of the absolute paths to a location, without a slash at its end. -/
def absolute (segments : List Text) : Text :=
  if segments = [] then [slash] else slash :: [slash].intercalate segments

/-- What stands behind the text of a directory in the one of a place below it. -/
def below (directory segments : List Text) : Text :=
  if directory = [] then [slash].intercalate segments else slash :: [slash].intercalate segments

/-- The location of a path, seen from a directory. -/
def locate (cwd path : Text) : List Text :=
  resolve (if isAbsolute path then path else cwd ++ slash :: path)

/-- The segments of a location: names without a slash. -/
def IsLocation (segments : List Text) : Prop := ∀ s ∈ segments, IsName s ∧ slash ∉ s

variable {path cwd : Text} {segments directory : List Text}

theorem isAbsolute_absolute (segments : List Text) : isAbsolute (absolute segments) = true := by
  unfold absolute
  split <;> rfl

/-- From the root nothing is above. -/
theorem isName_of_mem_walk {segment : Text} (h : segment ∈ walk false [] segments) :
    IsName segment := by
  induction segments using List.reverseRecOn generalizing segment with
  | nil => cases h
  | append_singleton segments last ih =>
    rw [walk_append] at h
    change segment ∈ push false (walk false [] segments) last at h
    generalize walk false [] segments = stack at h ih
    unfold push at h
    split at h
    · exact ih h
    · next hreal =>
      split at h
      · split at h
        · cases h
        · next top below =>
          have hname : IsName top := ih List.mem_cons_self
          rw [if_neg hname.2.2] at h
          exact ih (List.mem_cons_of_mem _ h)
      · next hup =>
        rcases List.mem_cons.mp h with rfl | h
        · exact ⟨(not_or.mp hreal).1, (not_or.mp hreal).2, hup⟩
        · exact ih h

theorem isLocation_resolve (h : isAbsolute path = true) : IsLocation (resolve path) := by
  intro s hs
  refine ⟨?_, (mem_resolve hs).2⟩
  unfold resolve at hs
  rw [h] at hs
  exact isName_of_mem_walk (List.mem_reverse.mp hs)

theorem isLocation_locate (hcwd : isAbsolute cwd = true) : IsLocation (locate cwd path) := by
  unfold locate
  split
  · next habs => exact isLocation_resolve habs
  · refine isLocation_resolve ?_
    cases cwd with
    | nil => cases hcwd
    | cons c cwd => exact hcwd

theorem IsLocation.ends (h : IsLocation segments) :
    ∀ s ∈ segments, s ≠ [] ∧ slash ∉ s := fun s hs => ⟨(h s hs).1.1, (h s hs).2⟩

/-- The normal form of an absolute path. -/
theorem normalize_absolute (h : isAbsolute path = true) :
    normalize path = absolute (resolve path) ++
      (if endsInSlash path = true ∧ resolve path ≠ [] then [slash] else []) := by
  have hne : path ≠ [] := by
    rintro rfl
    cases h
  unfold normalize absolute
  rw [if_neg hne]
  dsimp only
  by_cases hnil : resolve path = []
  · rw [hnil, if_pos (show [slash].intercalate ([] : List Text) = [] from rfl), if_pos h, if_pos rfl,
      if_neg fun hends => hends.2 rfl, List.append_nil]
  · obtain ⟨hbody, -⟩ := intercalate_ends hnil (isLocation_resolve h).ends
    rw [if_neg hbody, h, if_neg hnil]
    simp [hnil]

theorem walk_names (h : ∀ s ∈ segments, IsName s) (allow : Bool) (stack : List Text) :
    walk allow stack segments = segments.reverse ++ stack := by
  induction segments generalizing stack with
  | nil => rfl
  | cons s segments ih =>
    have hrest := ih (fun s' hs' => h s' (List.mem_cons_of_mem s hs')) (s :: stack)
    change walk allow (push allow stack s) segments = _
    rw [push_name (h s List.mem_cons_self), hrest, List.reverse_cons, List.append_assoc,
      List.singleton_append]

/-- A location is where its normal form leads to. -/
theorem resolve_absolute (h : IsLocation segments) : resolve (absolute segments) = segments := by
  unfold resolve
  rw [isAbsolute_absolute]
  unfold absolute
  split
  · next hnil => rw [hnil]; rfl
  · next hnil =>
    rw [show slash :: [slash].intercalate segments = [] ++ slash :: [slash].intercalate segments from rfl,
      List.splitOn_append_cons_self, List.splitOn_intercalate slash (fun s hs => (h s hs).2) hnil]
    change (walk false (push false [] []) segments).reverse = segments
    rw [walk_names fun s hs => (h s hs).1]
    simp [push]

theorem locate_absolute (h : IsLocation segments) : locate cwd (absolute segments) = segments := by
  unfold locate
  rw [isAbsolute_absolute, if_pos rfl, resolve_absolute h]

/-! ### Places below a directory -/

theorem absolute_append (hne : segments ≠ []) :
    absolute (directory ++ segments) = absolute directory ++ below directory segments := by
  unfold absolute below
  rw [if_neg (by simp [hne])]
  split
  · next hnil => rw [hnil]; rfl
  · next hdir =>
    rw [List.cons_append, List.cons.injEq]
    refine ⟨rfl, ?_⟩
    induction directory with
    | nil => exact absurd rfl hdir
    | cons s directory ih =>
      cases directory with
      | nil =>
        obtain ⟨first, rest, rfl⟩ := List.exists_cons_of_ne_nil hne
        simp [List.intercalate_cons_cons]
      | cons s' directory =>
        have hrest := ih (List.cons_ne_nil _ _)
        simp only [List.cons_append] at hrest ⊢
        rw [List.intercalate_cons_cons, hrest, List.intercalate_cons_cons]
        simp

theorem below_injective {segments' : List Text} (h : IsLocation segments) (h' : IsLocation segments')
    (hne : segments ≠ []) (hne' : segments' ≠ []) :
    below directory segments = below directory segments' ↔ segments = segments' := by
  have hsplit : [slash].intercalate segments = [slash].intercalate segments' →
      segments = segments' := by
    intro heq
    have hboth := congrArg (List.splitOn slash) heq
    rwa [List.splitOn_intercalate slash (fun s hs => (h s hs).2) hne,
      List.splitOn_intercalate slash (fun s hs => (h' s hs).2) hne'] at hboth
  unfold below
  constructor
  · intro heq
    split at heq
    · exact hsplit heq
    · exact hsplit (List.cons.inj heq).2
  · rintro rfl
    rfl

/-! ### The shortest path -/

/-- The length of segments with a slash in front of each. -/
def weight (segments : List Text) : ℕ := (segments.map fun s => s.length + 1).sum

theorem length_intercalate (hne : segments ≠ []) :
    ([slash].intercalate segments).length + 1 = weight segments := by
  induction segments with
  | nil => exact absurd rfl hne
  | cons s segments ih =>
    cases segments with
    | nil => simp [weight]
    | cons s' segments =>
      have hrest := ih (List.cons_ne_nil _ _)
      rw [List.intercalate_cons_cons]
      simp only [weight, List.map_cons, List.sum_cons, List.length_append,
        List.length_singleton] at hrest ⊢
      omega

theorem length_absolute (hne : segments ≠ []) : (absolute segments).length = weight segments := by
  unfold absolute
  rw [if_neg hne, List.length_cons, length_intercalate hne]

/-- Some of the segments weigh less than all of them. -/
theorem weight_of_sublist {xs ys : List Text} (h : xs.Sublist ys) :
    weight xs ≤ weight ys ∧ (weight xs = weight ys → xs = ys) := by
  induction h with
  | slnil => exact ⟨Nat.le_refl _, fun _ => rfl⟩
  | cons s _ ih =>
    simp only [weight, List.map_cons, List.sum_cons] at ih ⊢
    exact ⟨by omega, fun heq => by omega⟩
  | cons_cons s _ ih =>
    simp only [weight, List.map_cons, List.sum_cons] at ih ⊢
    exact ⟨by omega, fun heq => by rw [ih.2 (by omega)]⟩

/-- Nothing comes on the stack but the segments. -/
theorem walk_sublist (stack segments : List Text) :
    (walk false stack segments).reverse.Sublist (stack.reverse ++ segments) := by
  induction segments generalizing stack with
  | nil =>
    rw [List.append_nil]
    exact List.Sublist.refl _
  | cons s segments ih =>
    refine (ih (push false stack s)).trans ?_
    have hpush : (push false stack s).reverse.Sublist (stack.reverse ++ [s]) := by
      unfold push
      split
      · exact List.sublist_append_left _ _
      · split
        · split
          · exact List.nil_sublist _
          · next top below =>
            split
            · exact List.sublist_append_left _ _
            · rw [List.reverse_cons, List.append_assoc]
              exact List.sublist_append_left _ _
        · rw [List.reverse_cons]
    rw [List.append_cons]
    exact hpush.append_right segments

/-- An absolute path by the segments behind its first slash. -/
theorem absolute_path_cases (h : isAbsolute path = true) :
    ∃ segments, segments ≠ [] ∧ path = slash :: [slash].intercalate segments ∧
      (resolve path).Sublist segments := by
  cases path with
  | nil => cases h
  | cons c rest =>
    obtain rfl : c = slash := by simpa [isAbsolute] using h
    have hsplit : (slash :: rest).splitOn slash = [] :: rest.splitOn slash :=
      List.splitOn_append_cons_self [] rest
    refine ⟨rest.splitOn slash, List.splitOn_ne_nil _ _, ?_, ?_⟩
    · rw [List.intercalate_splitOn]
    · have hwalk := walk_sublist [] (rest.splitOn slash)
      unfold resolve
      rw [h, hsplit]
      exact hwalk

/-- The normal form is the shortest path to a location, and the only one of its length. -/
theorem absolute_resolve_shortest (h : isAbsolute path = true) :
    (absolute (resolve path)).length ≤ path.length ∧
      (path.length = (absolute (resolve path)).length → path = absolute (resolve path)) := by
  obtain ⟨segments, hne, hpath, hsublist⟩ := absolute_path_cases h
  have hlength : path.length = weight segments := by
    rw [hpath, List.length_cons, length_intercalate hne]
  by_cases hnil : resolve path = []
  · have hroot : absolute (resolve path) = [slash] := by
      rw [hnil]
      rfl
    rw [hroot, hpath, List.length_cons]
    refine ⟨Nat.le_add_left _ _, fun heq => ?_⟩
    rw [List.length_eq_zero_iff.mp (Nat.succ.inj heq)]
  · obtain ⟨hle, heq⟩ := weight_of_sublist hsublist
    rw [length_absolute hnil, hlength]
    refine ⟨hle, fun hweight => ?_⟩
    have hall := heq hweight.symm
    unfold absolute
    rw [if_neg hnil, hall]
    exact hpath

end PosixPath
