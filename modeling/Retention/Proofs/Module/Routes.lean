import Mathlib.Data.List.Infix
import Retention.Module.Specifier

/-!
# Where relative specifiers lead

A path is a list of parts. Read along it, a part without a name stays where one
is, two dots go up, and a name goes down (`Specifier.route`). A path escapes if
somewhere it has gone up more often than down (`Specifier.Escapes`).

A relative specifier stands for the path through its importer's directory and
then along itself. Resolving it refuses the paths that escape, and denotes the
others, provided that the specifier only leaves directories that the importer
names (`Specifier.resolve_lexically`). The importer's directory is taken as it is
written: two dots leave its last part even if that part is a dot.

* `Specifier.route_up_eq_zero_iff`: the route stays inside iff no part escapes.
* `Specifier.route_append`: routes one after the other.
* `Specifier.resolve?_eq`: what resolving does with any importer.
-/

namespace Retention.Specifier

/-- What stands between slashes. -/
abbrev Part := List Char

/-- Two dots, which lead to the directory above. -/
def upward : Part := ['.', '.']

/-- A part that stays where one is. -/
def IsBlank (part : Part) : Prop := part = [] ∨ part = ['.']

/-- A part that names a file or a directory. -/
def IsName (part : Part) : Prop := ¬ IsBlank part ∧ part ≠ upward

instance (part : Part) : Decidable (IsBlank part) := inferInstanceAs (Decidable (_ ∨ _))

instance (part : Part) : Decidable (IsName part) := inferInstanceAs (Decidable (_ ∧ _))

/-! ## Routes -/

/-- Somewhere along the path, it has gone up more often than down. -/
def Escapes (path : List Part) : Prop :=
  ∃ before, before <+: path ∧ before.countP (IsName ·) < before.count upward

/-- Where a path leads: so many directories up, and then down along some names,
which are listed innermost first. -/
structure Route where
  up : Nat
  down : List Part
deriving DecidableEq, Repr

/-- A part further: two dots leave the innermost directory that was entered, or
else go up. -/
def Route.follow (r : Route) (part : Part) : Route :=
  if IsBlank part then r
  else if part = upward then
    match r.down with
    | [] => { r with up := r.up + 1 }
    | _ :: outer => { r with down := outer }
  else { r with down := part :: r.down }

/-- Where a path leads. -/
def route (path : List Part) : Route := path.foldl Route.follow ⟨0, []⟩

/-- A route after another: first it leaves what the other has entered. -/
def Route.append (r s : Route) : Route :=
  ⟨r.up + (s.up - r.down.length), s.down ++ r.down.drop s.up⟩

section Follow

variable {r s : Route} {part : Part} {path path' : List Part}

theorem Route.follow_blank (h : IsBlank part) : r.follow part = r := if_pos h

theorem Route.follow_upward_nil (up : Nat) :
    (⟨up, []⟩ : Route).follow upward = ⟨up + 1, []⟩ := rfl

theorem Route.follow_upward_cons (up : Nat) (name : Part) (outer : List Part) :
    (⟨up, name :: outer⟩ : Route).follow upward = ⟨up, outer⟩ := rfl

theorem Route.follow_name (h : IsName part) : r.follow part = ⟨r.up, part :: r.down⟩ := by
  rw [follow, if_neg h.1, if_neg h.2]

/-- A part is blank, leads upward or is a name. -/
theorem blank_or_upward_or_name (part : Part) : IsBlank part ∨ part = upward ∨ IsName part := by
  by_cases hb : IsBlank part
  · exact .inl hb
  · by_cases hu : part = upward
    · exact .inr (.inl hu)
    · exact .inr (.inr ⟨hb, hu⟩)

theorem not_isBlank_upward : ¬ IsBlank upward := by decide

theorem route_concat (path : List Part) (part : Part) :
    route (path ++ [part]) = (route path).follow part := by
  rw [route, List.foldl_append]
  rfl

theorem isName_of_mem_down {name : Part} (h : name ∈ (route path).down) : IsName name := by
  induction path using List.reverseRecOn with
  | nil => cases h
  | append_singleton path part ih =>
    rw [route_concat] at h
    generalize route path = r at h ih
    obtain ⟨up, down⟩ := r
    rcases blank_or_upward_or_name part with hb | rfl | hn
    · rw [Route.follow_blank hb] at h
      exact ih h
    · cases down with
      | nil => cases h
      | cons inner outer => exact ih (List.mem_cons_of_mem inner h)
    · rw [Route.follow_name hn] at h
      rcases List.mem_cons.mp h with rfl | h
      · exact hn
      · exact ih h

/-- Each step up leaves a directory that was entered, or goes above the start. -/
theorem countP_name_add_up (path : List Part) :
    path.countP (IsName ·) + (route path).up = path.count upward + (route path).down.length := by
  induction path using List.reverseRecOn with
  | nil => rfl
  | append_singleton path part ih =>
    rw [route_concat, List.countP_append, List.count_append, List.countP_singleton,
      List.count_singleton]
    generalize route path = r at ih
    obtain ⟨up, down⟩ := r
    rcases blank_or_upward_or_name part with hb | rfl | hn
    · have hu : part ≠ upward := fun h => not_isBlank_upward (h ▸ hb)
      simpa [Route.follow_blank hb, IsName, hb, hu] using ih
    · cases down <;> simp [IsName, Route.follow, not_isBlank_upward] at ih ⊢ <;> omega
    · simp [Route.follow_name hn, hn, hn.2] at ih ⊢
      omega

/-- Going on never comes back from above the start. -/
theorem up_le_follow (r : Route) (part : Part) : r.up ≤ (r.follow part).up := by
  obtain ⟨up, down⟩ := r
  rcases blank_or_upward_or_name part with hb | rfl | hn
  · rw [Route.follow_blank hb]
  · cases down with
    | nil => exact Nat.le_succ up
    | cons inner outer => exact Nat.le_refl up
  · rw [Route.follow_name hn]

theorem up_le_of_prefix (h : path <+: path') : (route path).up ≤ (route path').up := by
  obtain ⟨rest, rfl⟩ := h
  induction rest using List.reverseRecOn with
  | nil => rw [List.append_nil]
  | append_singleton rest part ih =>
    rw [← List.append_assoc, route_concat]
    exact ih.trans (up_le_follow _ part)

/-- A path stays inside iff its route does not go above its start. -/
theorem route_up_eq_zero_iff (path : List Part) : (route path).up = 0 ↔ ¬ Escapes path := by
  constructor
  · rintro hup ⟨before, hbefore, hlt⟩
    have hle := up_le_of_prefix hbefore
    have hbalance := countP_name_add_up before
    omega
  · intro hinside
    induction path using List.reverseRecOn with
    | nil => rfl
    | append_singleton path part ih =>
      have hup : (route path).up = 0 := ih fun ⟨before, hbefore, hlt⟩ =>
        hinside ⟨before, hbefore.trans (List.prefix_append path [part]), hlt⟩
      by_contra hne
      -- the last part went above the start, so the whole path has more steps up than names
      have hbalance := countP_name_add_up (path ++ [part])
      have hdown : (route (path ++ [part])).down = [] := by
        rw [route_concat] at hne ⊢
        generalize route path = r at hup hne
        obtain ⟨up, down⟩ := r
        rcases blank_or_upward_or_name part with hb | rfl | hn
        · exact absurd (Route.follow_blank hb ▸ hup) hne
        · cases down with
          | nil => rfl
          | cons inner outer => exact absurd hup hne
        · exact absurd (Route.follow_name hn ▸ hup) hne
      rw [hdown, List.length_nil] at hbalance
      exact hinside ⟨path ++ [part], List.prefix_rfl, by omega⟩

/-- A part is followed after two routes as it is after the second. -/
theorem Route.follow_append (r s : Route) (part : Part) :
    (r.append s).follow part = r.append (s.follow part) := by
  obtain ⟨up, down⟩ := s
  rcases blank_or_upward_or_name part with hb | rfl | hn
  · rw [Route.follow_blank hb, Route.follow_blank hb]
  · cases down with
    | cons inner outer => rfl
    | nil =>
      rw [Route.follow_upward_nil]
      by_cases hlt : up < r.down.length
      · have hup : up - r.down.length = up + 1 - r.down.length := by omega
        simp only [Route.append, List.nil_append, List.drop_eq_getElem_cons hlt,
          Route.follow_upward_cons, hup]
      · have hle : r.down.length ≤ up := Nat.le_of_not_lt hlt
        have hup : r.up + (up - r.down.length) + 1 = r.up + (up + 1 - r.down.length) := by omega
        simp only [Route.append, List.nil_append, List.drop_eq_nil_of_le hle,
          List.drop_eq_nil_of_le (hle.trans (Nat.le_succ up)), Route.follow_upward_nil, hup]
  · rw [Route.follow_name hn, Route.follow_name hn]
    rfl

/-- A path after another leads where its route leads from there. -/
theorem route_append (path path' : List Part) :
    route (path ++ path') = (route path).append (route path') := by
  induction path' using List.reverseRecOn with
  | nil =>
    rw [List.append_nil]
    show route path = ⟨_ + (0 - _), [] ++ (route path).down.drop 0⟩
    simp
  | append_singleton path' part ih =>
    rw [← List.append_assoc, route_concat, route_concat, ih, Route.follow_append]

/-- Names lead down, one after the other. -/
theorem route_of_names {names : List Part} (h : ∀ part ∈ names, IsName part) :
    route names = ⟨0, names.reverse⟩ := by
  induction names using List.reverseRecOn with
  | nil => rfl
  | append_singleton names part ih =>
    rw [route_concat, ih fun p hp => h p (List.mem_append_left _ hp),
      Route.follow_name (h part (List.mem_append_right _ (List.mem_singleton_self part))),
      List.reverse_append, List.reverse_singleton, List.singleton_append]

/-- Names at the end of a path are what its route enters last. -/
theorem route_append_names (path : List Part) {names : List Part} (h : ∀ part ∈ names, IsName part) :
    route (path ++ names) = ⟨(route path).up, names.reverse ++ (route path).down⟩ := by
  rw [route_append, route_of_names h]
  simp [Route.append]

end Follow

/-! ## Parts of a text -/

theorem parts_cons_of_ne {c : Char} (hc : c ≠ '/') (s : List Char) :
    ∃ part more, parts s = part :: more ∧ parts (c :: s) = (c :: part) :: more := by
  obtain ⟨part, more, hs⟩ := List.exists_cons_of_ne_nil (parts_ne_nil s)
  refine ⟨part, more, hs, ?_⟩
  rw [parts]
  · rw [hs]
  · exact hc

theorem not_mem_of_mem_parts {part : Part} {s : List Char} (h : part ∈ parts s) : '/' ∉ part := by
  induction s generalizing part with
  | nil => simp [List.mem_singleton.mp h]
  | cons c s ih =>
    by_cases hc : c = '/'
    · subst hc
      rcases List.mem_cons.mp h with rfl | h
      · exact List.not_mem_nil
      · exact ih h
    · obtain ⟨first, more, hs, hcs⟩ := parts_cons_of_ne hc s
      rw [hcs] at h
      rcases List.mem_cons.mp h with rfl | h
      · intro hmem
        rcases List.mem_cons.mp hmem with rfl | hmem
        · exact hc rfl
        · exact ih (hs ▸ List.mem_cons_self) hmem
      · exact ih (hs ▸ List.mem_cons_of_mem first h)

theorem parts_append {part : Part} (h : '/' ∉ part) (s : List Char) :
    ∃ first more, parts s = first :: more ∧ parts (part ++ s) = (part ++ first) :: more := by
  induction part with
  | nil =>
    obtain ⟨first, more, hs⟩ := List.exists_cons_of_ne_nil (parts_ne_nil s)
    exact ⟨first, more, hs, hs⟩
  | cons c part ih =>
    obtain ⟨first, more, hs, hps⟩ := ih fun hmem => h (List.mem_cons_of_mem c hmem)
    have hc : c ≠ '/' := fun heq => h (heq ▸ List.mem_cons_self)
    obtain ⟨first', more', hs', hcs⟩ := parts_cons_of_ne hc (part ++ s)
    obtain ⟨rfl, rfl⟩ := List.cons.inj (hs'.symm.trans hps)
    exact ⟨first, _, hs, hcs⟩

/-- The parts of a text that was put together from parts are those parts. -/
theorem parts_join {ps : List Part} (hne : ps ≠ []) (h : ∀ part ∈ ps, '/' ∉ part) :
    parts (join ps) = ps := by
  induction ps with
  | nil => exact absurd rfl hne
  | cons part rest ih =>
    have hpart := h part List.mem_cons_self
    cases rest with
    | nil =>
      obtain ⟨first, more, hs, hps⟩ := parts_append hpart []
      obtain ⟨rfl, rfl⟩ : [] = first ∧ [] = more := List.cons.inj hs
      simpa [join, List.intercalate] using hps
    | cons next rest =>
      obtain ⟨first, more, hs, hps⟩ := parts_append hpart ('/' :: join (next :: rest))
      have hjoin : join (part :: next :: rest) = part ++ '/' :: join (next :: rest) := by
        simp [join, List.intercalate]
      have hslash : parts ('/' :: join (next :: rest)) = [] :: parts (join (next :: rest)) := rfl
      obtain ⟨rfl, rfl⟩ := List.cons.inj (hs.symm.trans hslash)
      rw [hjoin, hps, List.append_nil,
        ih (List.cons_ne_nil next rest) fun p hp => h p (List.mem_cons_of_mem part hp)]

/-! ## Resolving -/

/-- The directories that are left when a route is taken from some, listed
innermost first: those that it leaves must not be blank texts. -/
def leave? (directories : List Part) (r : Route) : Option (List Part) :=
  if r.up ≤ directories.length ∧ [] ∉ directories.take r.up then
    some (r.down ++ directories.drop r.up)
  else none

theorem enter?_blank {part : Part} (h : IsBlank part) (directories : List Part) :
    enter? directories part = some directories := if_pos h

theorem enter?_name {part : Part} (h : IsName part) (directories : List Part) :
    enter? directories part = some (part :: directories) := (if_neg h.1).trans (if_neg h.2)

theorem enter?_upward_cons {inner : Part} (h : inner ≠ []) (outer : List Part) :
    enter? (inner :: outer) upward = some outer := by
  obtain ⟨c, inner, rfl⟩ := List.exists_cons_of_ne_nil h
  rfl

/-- Two dots leave one directory more. -/
theorem leave?_upward (directories : List Part) (up : Nat) :
    (leave? directories ⟨up, []⟩).bind (enter? · upward) = leave? directories ⟨up + 1, []⟩ := by
  unfold leave?
  by_cases hlt : up < directories.length
  · simp only [List.take_succ_eq_append_getElem hlt, List.mem_append, List.mem_singleton, not_or,
      List.nil_append, List.drop_eq_getElem_cons hlt, hlt.le, Nat.succ_le_of_lt hlt, true_and]
    by_cases hempty : directories[up] = []
    · simp only [hempty, not_true_eq_false, and_false, if_false]
      split <;> rfl
    · simp only [Ne.symm hempty, not_false_eq_true, and_true]
      split
      · exact enter?_upward_cons hempty _
      · rfl
  · have hle : directories.length ≤ up := Nat.le_of_not_lt hlt
    rw [if_neg (c := up + 1 ≤ _ ∧ _) fun h => hlt h.1, List.drop_eq_nil_of_le hle]
    split <;> rfl

theorem enter?_leave? (directories : List Part) {r : Route} (hnames : ∀ name ∈ r.down, IsName name)
    (part : Part) :
    (leave? directories r).bind (enter? · part) = leave? directories (r.follow part) := by
  obtain ⟨up, down⟩ := r
  rcases blank_or_upward_or_name part with hb | rfl | hn
  · simp only [enter?_blank hb, Route.follow_blank hb, Option.bind_fun_some]
  · cases down with
    | nil => exact leave?_upward directories up
    | cons inner outer =>
      have hinner : inner ≠ [] := fun h => (hnames inner List.mem_cons_self).1 (.inl h)
      rw [Route.follow_upward_cons]
      unfold leave?
      split
      · exact enter?_upward_cons hinner _
      · rfl
  · rw [Route.follow_name hn]
    unfold leave?
    split
    · exact enter?_name hn _
    · rfl

theorem foldlM_enter? (directories path : List Part) :
    path.foldlM enter? directories = leave? directories (route path) := by
  induction path using List.reverseRecOn with
  | nil => simp [leave?, route]
  | append_singleton path part ih =>
    rw [List.foldlM_append, ih, route_concat, ← enter?_leave? directories fun _ => isName_of_mem_down]
    simp

/-- The directory of a specifier: its parts without the last. -/
def directory (importer : String) : List Part := (parts importer.toList).dropLast

/-- The path through the importer's directory and then along the target. -/
def path (target importer : String) : List Part := directory importer ++ parts target.toList

/-- Resolving takes the route of a relative specifier from the importer's
directory, however that is written. -/
theorem resolve?_eq {target : String} (importer : String)
    (hrelative : isRelative target.toList = true) :
    resolve? target importer =
      (leave? (directory importer).reverse (route (parts target.toList))).map fun left =>
        String.ofList (join left.reverse) := by
  rw [resolve?, if_pos hrelative, ← foldlM_enter?]
  rfl

/-- A path that starts at the root: its first part is blank, and not the only one. -/
def isRooted : List Part → Bool
  | [] :: _ :: _ => true
  | _ => false

theorem isRooted_of_head {first : Part} (h : first ≠ []) (rest : List Part) :
    isRooted (first :: rest) = false := by
  obtain ⟨c, first, rfl⟩ := List.exists_cons_of_ne_nil h
  rfl

theorem isRooted_of_rest {rest : List Part} (h : rest ≠ []) : isRooted ([] :: rest) = true := by
  obtain ⟨second, rest, rfl⟩ := List.exists_cons_of_ne_nil h
  rfl

/-- A specifier leads where a path does. Only where no name is left, it does not
tell whether that is the root. -/
structure Denotes (specifier : String) (path : List Part) : Prop where
  route : route (parts specifier.toList) = route path
  rooted : (Specifier.route path).down ≠ [] → isRooted (parts specifier.toList) = isRooted path

/-- The directories that a target leaves are ones that its importer names, or
there are no others below the root. -/
def LeavesNames (target importer : String) : Prop :=
  ∃ above left, directory importer = above ++ left ∧ (∀ part ∈ left, IsName part) ∧
    ((route (parts target.toList)).up ≤ left.length ∨ above = [] ∨ above = [[]])

/-! ## Relative specifiers -/

variable {target importer : String}

/-- Parts that take the same route as a path are a specifier for it. -/
theorem denotes_of_route_eq {ps path : List Part} (hslash : ∀ part ∈ ps, '/' ∉ part)
    (hroute : route ps = route path)
    (hrooted : (route path).down ≠ [] → isRooted ps = isRooted path) :
    Denotes (String.ofList (join ps)) path := by
  by_cases hps : ps = []
  · subst hps
    have hparts : parts (String.ofList (join [])).toList = [[]] := by
      rw [String.toList_ofList]
      rfl
    refine ⟨by rw [hparts, ← hroute]; rfl, fun hdown => absurd ?_ hdown⟩
    rw [← hroute]
    rfl
  · have hparts : parts (String.ofList (join ps)).toList = ps := by
      rw [String.toList_ofList, parts_join hps hslash]
    exact ⟨by rw [hparts, hroute], fun hdown => by rw [hparts, hrooted hdown]⟩

theorem not_mem_of_mem_directory {part : Part} (h : part ∈ directory importer) : '/' ∉ part :=
  not_mem_of_mem_parts ((List.dropLast_sublist _).mem h)

/-- A name of a route is a part of its path. -/
theorem mem_of_mem_down {name : Part} {ps : List Part} (h : name ∈ (route ps).down) : name ∈ ps := by
  induction ps using List.reverseRecOn with
  | nil => cases h
  | append_singleton ps part ih =>
    rw [route_concat] at h
    generalize route ps = r at h ih
    obtain ⟨up, down⟩ := r
    rcases blank_or_upward_or_name part with hb | rfl | hn
    · rw [Route.follow_blank hb] at h
      exact List.mem_append_left _ (ih h)
    · cases down with
      | nil => cases h
      | cons inner outer => exact List.mem_append_left _ (ih (List.mem_cons_of_mem inner h))
    · rw [Route.follow_name hn] at h
      rcases List.mem_cons.mp h with rfl | h
      · exact List.mem_append_right _ (List.mem_singleton_self _)
      · exact List.mem_append_left _ (ih h)

/-- The names that are left, innermost first, when a target leaves some of its
importer's. -/
def kept (target : String) (left : List Part) : List Part :=
  (route (parts target.toList)).down ++ left.reverse.drop (route (parts target.toList)).up

theorem isName_of_mem_kept {left : List Part} (hnames : ∀ part ∈ left, IsName part) {part : Part}
    (h : part ∈ kept target left) : IsName part := by
  rcases List.mem_append.mp h with h | h
  · exact isName_of_mem_down h
  · exact hnames part (List.mem_reverse.mp (List.mem_of_mem_drop h))

/-- A target that leaves named directories only takes their place. -/
theorem resolve?_of_le {above left : List Part} (hrelative : isRelative target.toList = true)
    (hdirectory : directory importer = above ++ left) (hnames : ∀ part ∈ left, IsName part)
    (hle : (route (parts target.toList)).up ≤ left.length) :
    resolve? target importer =
      some (String.ofList (join (above ++ (kept target left).reverse))) := by
  unfold kept
  generalize hr : route (parts target.toList) = r at hle ⊢
  have hle' : r.up ≤ left.reverse.length := by rwa [List.length_reverse]
  have hlength : r.up ≤ (left.reverse ++ above.reverse).length := by
    rw [List.length_append]
    omega
  have hempty : [] ∉ left.reverse.take r.up := fun h =>
    (hnames [] (List.mem_reverse.mp (List.mem_of_mem_take h))).1 (.inl rfl)
  have hleave : leave? (directory importer).reverse r =
      some (r.down ++ (left.reverse.drop r.up ++ above.reverse)) := by
    rw [leave?, hdirectory, List.reverse_append, List.take_append_of_le_length hle',
      List.drop_append_of_le_length hle', if_pos ⟨hlength, hempty⟩]
  rw [resolve?_eq importer hrelative, hr, hleave, Option.map_some, ← List.append_assoc,
    List.reverse_append, List.reverse_reverse]

/-- A target that goes above the root of its importer is refused. -/
theorem resolve?_of_lt {above left : List Part} (hrelative : isRelative target.toList = true)
    (hdirectory : directory importer = above ++ left) (habove : above = [] ∨ above = [[]])
    (hlt : left.length < (route (parts target.toList)).up) : resolve? target importer = none := by
  rw [resolve?_eq importer hrelative, leave?, if_neg, Option.map_none]
  rintro ⟨hle, hempty⟩
  rw [hdirectory, List.reverse_append] at hle hempty
  rcases habove with rfl | rfl
  · rw [List.reverse_nil, List.append_nil, List.length_reverse] at hle
    omega
  · refine hempty ?_
    rw [List.take_of_length_le]
    · exact List.mem_append_right _ (List.mem_singleton_self _)
    · rwa [List.length_append, List.length_reverse]

/-- A text that begins with a dot does not begin with a blank part. -/
theorem exists_parts_of_isRelative (hrelative : isRelative target.toList = true) :
    ∃ first more, parts target.toList = first :: more ∧ first ≠ [] := by
  obtain ⟨rest, htarget⟩ : ∃ rest, target.toList = '.' :: rest := by
    unfold isRelative at hrelative
    split at hrelative
    · rename_i h
      exact ⟨_, h⟩
    · rename_i h
      exact ⟨_, h⟩
    · cases hrelative
  obtain ⟨first, more, -, hparts⟩ := parts_cons_of_ne (by decide : '.' ≠ '/') rest
  exact ⟨'.' :: first, more, htarget ▸ hparts, List.cons_ne_nil _ _⟩

/-- A path that begins with a name, if with anything, does not start at the root. -/
theorem isRooted_of_names {names : List Part} (h : ∀ part ∈ names, IsName part) :
    isRooted names = false := by
  cases names with
  | nil => rfl
  | cons first rest =>
    exact isRooted_of_head (fun heq => (h first List.mem_cons_self).1 (.inl heq)) rest

/-- Where names take the place of others behind the same directories, the path
starts at the root if it did. -/
theorem isRooted_append {above left names : List Part}
    (hrelative : isRelative target.toList = true) (hleft : ∀ part ∈ left, IsName part)
    (hnames : ∀ part ∈ names, IsName part) (hne : (route (above ++ names)).down ≠ []) :
    isRooted (above ++ names) = isRooted (above ++ left ++ parts target.toList) := by
  obtain ⟨start, more, hparts, hstart⟩ := exists_parts_of_isRelative hrelative
  rw [hparts]
  cases above with
  | nil =>
    rw [List.nil_append, isRooted_of_names hnames, List.nil_append]
    cases left with
    | nil => exact (isRooted_of_head hstart more).symm
    | cons first rest =>
      have hfirst : first ≠ [] := fun heq => (hleft first List.mem_cons_self).1 (.inl heq)
      exact (isRooted_of_head hfirst _).symm
  | cons first above =>
    by_cases hfirst : first = []
    · subst hfirst
      have hrest : above ++ names ≠ [] := by
        intro hnil
        rw [List.cons_append, hnil] at hne
        exact hne rfl
      rw [List.cons_append, isRooted_of_rest hrest, List.cons_append, List.cons_append,
        isRooted_of_rest (List.append_ne_nil_of_right_ne_nil _ (List.cons_ne_nil start more))]
    · rw [List.cons_append, isRooted_of_head hfirst, List.cons_append, List.cons_append,
        isRooted_of_head hfirst]

/-- No slash gets into a part. -/
theorem not_mem_of_mem_kept {above left : List Part} (hdirectory : directory importer = above ++ left)
    {part : Part} (h : part ∈ above ++ (kept target left).reverse) : '/' ∉ part := by
  have hmem {part : Part} (h : part ∈ above ++ left) : '/' ∉ part :=
    not_mem_of_mem_directory (hdirectory ▸ h)
  rcases List.mem_append.mp h with h | h
  · exact hmem (List.mem_append_left _ h)
  · rcases List.mem_append.mp (List.mem_reverse.mp h) with h | h
    · exact not_mem_of_mem_parts (mem_of_mem_down h)
    · exact hmem (List.mem_append_right _ (List.mem_reverse.mp (List.mem_of_mem_drop h)))

/-- A path through named directories leaves those first. -/
theorem route_path (target : String) {above left : List Part}
    (hinside : ¬ Escapes (directory importer)) (hdirectory : directory importer = above ++ left)
    (hnames : ∀ part ∈ left, IsName part) :
    (route above).up = 0 ∧ route (path target importer) =
      Route.append ⟨0, left.reverse ++ (route above).down⟩ (route (parts target.toList)) := by
  have hroute := route_append_names above hnames
  have hzero := (route_up_eq_zero_iff _).mpr hinside
  rw [hdirectory, hroute] at hzero
  have hzero : (route above).up = 0 := hzero
  exact ⟨hzero, by rw [path, route_append, hdirectory, hroute, hzero]⟩

/-- What is kept takes the route of the path. -/
theorem route_kept {above left : List Part} (hinside : ¬ Escapes (directory importer))
    (hdirectory : directory importer = above ++ left) (hnames : ∀ part ∈ left, IsName part)
    (hle : (route (parts target.toList)).up ≤ left.length) :
    route (above ++ (kept target left).reverse) = route (path target importer) ∧
      ¬ Escapes (path target importer) := by
  obtain ⟨hzero, hroute⟩ := route_path target hinside hdirectory hnames
  have hkept : ∀ part ∈ (kept target left).reverse, IsName part := fun part h =>
    isName_of_mem_kept hnames (List.mem_reverse.mp h)
  have hle' : (route (parts target.toList)).up ≤ left.reverse.length := by rwa [List.length_reverse]
  have hnone : (route (parts target.toList)).up -
      (left.reverse ++ (route above).down).length = 0 := by
    rw [List.length_append]
    omega
  have hsame : route (above ++ (kept target left).reverse) = route (path target importer) := by
    rw [route_append_names _ hkept, hroute, hzero, List.reverse_reverse, kept, List.append_assoc]
    simp only [Route.append, List.drop_append_of_le_length hle', hnone]
  refine ⟨hsame, ?_⟩
  rw [← route_up_eq_zero_iff, ← hsame, route_append_names _ hkept]
  exact hzero

/-- A target that leaves more directories than there are escapes. -/
theorem escapes_of_lt {above left : List Part} (hinside : ¬ Escapes (directory importer))
    (hdirectory : directory importer = above ++ left) (hnames : ∀ part ∈ left, IsName part)
    (habove : above = [] ∨ above = [[]]) (hlt : left.length < (route (parts target.toList)).up) :
    Escapes (path target importer) := by
  obtain ⟨-, hroute⟩ := route_path target hinside hdirectory hnames
  have hdown : (route above).down = [] := by
    rcases habove with rfl | rfl <;> rfl
  by_contra hnot
  have hup := (route_up_eq_zero_iff _).mpr hnot
  rw [hroute, hdown, List.append_nil] at hup
  simp only [Route.append, List.length_reverse] at hup
  omega

/-- A relative specifier whose importer's path stays inside, and which leaves
directories only that the importer names, is refused iff the path along both
escapes, and otherwise denotes that path. -/
theorem resolve_lexically (hrelative : isRelative target.toList = true)
    (hinside : ¬ Escapes (directory importer)) (hleaves : LeavesNames target importer) :
    (Escapes (path target importer) →
      resolve target importer = .error (escapes target importer)) ∧
    (¬ Escapes (path target importer) →
      ∃ specifier, resolve target importer = .ok specifier ∧
        Denotes specifier (path target importer)) := by
  obtain ⟨above, left, hdirectory, hnames, hup⟩ := hleaves
  by_cases hle : (route (parts target.toList)).up ≤ left.length
  · obtain ⟨hsame, hstays⟩ := route_kept hinside hdirectory hnames hle
    have hkept : ∀ part ∈ (kept target left).reverse, IsName part := fun part h =>
      isName_of_mem_kept hnames (List.mem_reverse.mp h)
    refine ⟨fun h => absurd h hstays, fun _ => ⟨_, ?_, denotes_of_route_eq ?_ hsame ?_⟩⟩
    · rw [resolve, resolve?_of_le hrelative hdirectory hnames hle]
    · exact fun part => not_mem_of_mem_kept hdirectory
    · intro hdown
      rw [path, hdirectory]
      exact isRooted_append hrelative hnames hkept (hsame ▸ hdown)
  · have hlt := Nat.lt_of_not_le hle
    have habove : above = [] ∨ above = [[]] := hup.resolve_left hle
    have hescapes := escapes_of_lt hinside hdirectory hnames habove hlt
    refine ⟨fun _ => ?_, fun hnot => absurd hescapes hnot⟩
    rw [resolve, resolve?_of_lt hrelative hdirectory habove hlt]

/-- The importer's directory holds a dot that is not left, and the target leaves a
directory that it has entered. -/
theorem resolve_lexically_nested :
    isRelative "../lib/../c.js".toList = true ∧ ¬ Escapes (directory "/src/./nested/a.js") ∧
      LeavesNames "../lib/../c.js" "/src/./nested/a.js" ∧
      ∃ specifier, resolve "../lib/../c.js" "/src/./nested/a.js" = .ok specifier ∧
        Denotes specifier (path "../lib/../c.js" "/src/./nested/a.js") := by
  have hrelative : isRelative "../lib/../c.js".toList = true := by decide
  have hinside : ¬ Escapes (directory "/src/./nested/a.js") :=
    (route_up_eq_zero_iff _).mp (by decide)
  have hleaves : LeavesNames "../lib/../c.js" "/src/./nested/a.js" :=
    ⟨[[], "src".toList, ['.']], ["nested".toList], by decide, by decide, .inl (by decide)⟩
  have hstays : ¬ Escapes (path "../lib/../c.js" "/src/./nested/a.js") :=
    (route_up_eq_zero_iff _).mp (by decide)
  exact ⟨hrelative, hinside, hleaves, (resolve_lexically hrelative hinside hleaves).2 hstays⟩

/-- Two dots leave the dot that an importer is written with: the path goes above
the start, and is not refused. -/
theorem resolve_dot_directory :
    Escapes (path "../x.js" "./main.js") ∧ resolve "../x.js" "./main.js" = .ok "x.js" := by
  refine ⟨⟨[['.'], upward], by decide, by decide⟩, by decide⟩

end Retention.Specifier
