import CellGraph.Library
import CellGraph.Proofs.Notebook.Address

/-!
# The files of a library

The file of a hosted notebook is found by taking its address apart again: the origin and the slashes behind
it are dropped, and what stands before the first `.js` names the file. An id has no slash at its front, so
nothing of it is dropped there; but it may have a `.js` of its own, and then the file is that of its *stem*,
the part before it. `.js` cannot overlap with itself, so this is all that goes wrong (`before?_append_script`).

That the files of two ids are different takes more than different paths. A path is walked step by step, and
steps that are empty or dots do not lead where others do not. Without them the place of a file is the place
of the directory and the steps of the id (`placeOf_join`).
-/

namespace CellGraph

open Text

/-! ## The part before `.js` -/

namespace Text

theorem eq_append_of_before? {part s front : List Char} (h : before? part s = some front) :
    ∃ back, s = front ++ part ++ back := by
  induction s generalizing front with
  | nil =>
      rw [before?] at h
      split at h
      · rename_i hpart
        exact ⟨[], by simp [hpart, ← Option.some.inj h]⟩
      · cases h
  | cons c s ih =>
      rw [before?] at h
      split at h
      · rename_i hfront
        obtain ⟨back, hback⟩ := Option.isSome_iff_exists.mp hfront
        exact ⟨back, by rw [← Option.some.inj h, eq_append_of_dropFront? hback, List.nil_append]⟩
      · obtain ⟨front', hfront', rfl⟩ := Option.map_eq_some_iff.mp h
        obtain ⟨back, rfl⟩ := ih hfront'
        exact ⟨back, rfl⟩

/-- What `.js` is appended to does not begin with one because of it. -/
theorem dropFront?_append_script (c : Char) (s back : List Char) :
    (dropFront? ['.', 'j', 's'] (c :: s ++ ['.', 'j', 's'] ++ back)).isSome =
      (dropFront? ['.', 'j', 's'] (c :: s)).isSome := by
  rcases s with _ | ⟨d, _ | ⟨e, s⟩⟩
  · simp [dropFront?]
  · by_cases hc : '.' = c <;> by_cases hd : 'j' = d <;> simp [dropFront?, hc, hd]
  · simp only [List.cons_append, List.append_assoc, dropFront?]
    split_ifs <;> rfl

/-- The first `.js` of a text that one is appended to: the first of the text, or else the appended one. -/
theorem before?_append_script (s back : List Char) :
    before? ['.', 'j', 's'] (s ++ ['.', 'j', 's'] ++ back) = some ((before? ['.', 'j', 's'] s).getD s) := by
  induction s with
  | nil => simp [before?, dropFront?]
  | cons c s ih =>
      have hfront := dropFront?_append_script c s back
      rw [List.cons_append, List.cons_append] at hfront ⊢
      rw [before?, before?, hfront]
      split
      · rfl
      · rw [ih]
        cases before? ['.', 'j', 's'] s <;> rfl

end Text

/-! ## Places -/

namespace Files

/-- A path that does not begin at the root. -/
def IsRelative (path : String) : Prop :=
  ∃ c rest, path.toList = c :: rest ∧ c ≠ '/'

/-- The parts of a path between its slashes. -/
def parts (path : String) : List String :=
  (splitOn '/' path.toList).map String.ofList

theorem parts_ne_nil (path : String) : parts path ≠ [] := by
  simp [parts, splitOn_ne_nil]

theorem parts_injective {a b : String} (h : parts a = parts b) : a = b := by
  have hparts : splitOn '/' a.toList = splitOn '/' b.toList :=
    List.map_injective_iff.mpr (fun _ _ h => String.ofList_injective h) h
  rw [← String.toList_inj, ← joinWith_splitOn '/' a.toList, hparts, joinWith_splitOn]

theorem parts_below (directory path : String) :
    parts (directory ++ "/" ++ path) = parts directory ++ parts path := by
  have hchars : (directory ++ "/" ++ path).toList = directory.toList ++ '/' :: path.toList := by
    simp
  rw [parts, hchars, splitOn_append_separator, List.map_append]
  rfl

/-- The steps of a path are its parts, unless it begins at the root. -/
theorem steps_eq (path : String) :
    steps path =
      if (parts path).head? = some "" then
        (if (parts path).tail = [] then [] else rootStep :: (parts path).tail)
      else parts path := by
  unfold steps parts
  dsimp only
  split
  · rename_i rest hparts
    simp [hparts]
  · rename_i hparts
    rw [if_neg]
    intro hhead
    obtain ⟨rest, hrest⟩ := List.head?_eq_some_iff.mp hhead
    exact hparts rest hrest

theorem IsRelative.steps {path : String} (h : IsRelative path) : steps path = parts path := by
  obtain ⟨c, rest, hpath, hc⟩ := h
  rw [steps_eq, if_neg]
  rw [parts, hpath, splitOn, if_neg hc]
  split <;> simp [String.ofList_eq_empty_iff]

/-- The steps of a path below a directory: some that the directory alone decides, and then its own. -/
theorem exists_steps_join (directory : String) :
    ∃ front, ∀ {path : String}, IsRelative path → steps (join directory path) = front ++ steps path := by
  have hbelow : ∀ above : String, ∃ front, ∀ {path : String}, IsRelative path →
      steps (above ++ "/" ++ path) = front ++ steps path := by
    intro above
    obtain ⟨first, more, hparts⟩ := List.exists_cons_of_ne_nil (parts_ne_nil above)
    refine ⟨(if first = "" then rootStep else first) :: more, fun {path} hpath => ?_⟩
    rw [steps_eq, parts_below, hparts, hpath.steps]
    by_cases hfirst : first = "" <;> simp [hfirst, parts_ne_nil]
  by_cases hempty : directory = ""
  · exact ⟨[], fun _ => by rw [join, if_pos hempty, List.nil_append]⟩
  · by_cases hslash : directory.toList.getLast? = some '/'
    · obtain ⟨above, habove⟩ := List.getLast?_eq_some_iff.mp hslash
      have hdirectory : directory = String.ofList above ++ "/" := by
        rw [← String.toList_inj, habove]
        simp
      obtain ⟨front, hfront⟩ := hbelow (String.ofList above)
      exact ⟨front, fun hpath => by rw [join, if_neg hempty, if_pos hslash, hdirectory, hfront hpath]⟩
    · obtain ⟨front, hfront⟩ := hbelow directory
      exact ⟨front, fun hpath => by rw [join, if_neg hempty, if_neg hslash, hfront hpath]⟩

/-- A step that leads to a place of its own name. -/
def IsPlainStep (step : String) : Prop :=
  step ≠ "" ∧ step ≠ "." ∧ step ≠ ".."
deriving Decidable

theorem foldl_move_of_plain {steps : List String} (h : ∀ step ∈ steps, IsPlainStep step)
    (place : List String) : steps.foldl move place = place ++ steps := by
  induction steps generalizing place with
  | nil => simp
  | cons step steps ih =>
      obtain ⟨⟨hempty, hdot, hup⟩, hsteps⟩ := List.forall_mem_cons.mp h
      rw [List.foldl_cons, move, if_neg (by simp [hempty, hdot]), if_neg hup, ih hsteps]
      simp

/-- Two paths of plain steps below one directory lead to one place only if they are the same. -/
theorem placeOf_join_inj (directory : String) {a b : String} (ha : IsRelative a) (hb : IsRelative b)
    (hplain : ∀ step ∈ steps a, IsPlainStep step) (hplain' : ∀ step ∈ steps b, IsPlainStep step)
    (h : placeOf (join directory a) = placeOf (join directory b)) : a = b := by
  obtain ⟨front, hfront⟩ := exists_steps_join directory
  rw [placeOf, placeOf, hfront ha, hfront hb, List.foldl_append, List.foldl_append,
    foldl_move_of_plain hplain, foldl_move_of_plain hplain', ha.steps, hb.steps] at h
  exact parts_injective (List.append_cancel_left h)

theorem join_injective (directory : String) {a b : String} (h : join directory a = join directory b) :
    a = b := by
  rw [join, join] at h
  split at h
  · exact h
  · split at h <;> simpa using h

end Files

/-! ## The files of ids -/

/-- An id begins with `@` or a letter, so not with a slash. -/
theorem Address.Hosted.exists_head {id : List Char} (h : Address.Hosted id) :
    ∃ c rest, id = c :: rest ∧ c ≠ '/' := by
  rcases h.id with ⟨owner, slug, rfl, -⟩ | ⟨first, rest, rfl, hfirst, -⟩
  · exact ⟨'@', _, rfl, by decide⟩
  · refine ⟨first, _, rfl, ?_⟩
    rcases hfirst with rfl | rfl <;> decide

namespace Library

/-- The part of an id before its first `.js`, or the whole of it. -/
def stem (id : String) : String :=
  String.ofList ((before? ['.', 'j', 's'] id.toList).getD id.toList)

/-- The path of the file with a name. -/
def fileNamed (l : Library) (name : String) : String :=
  Files.join l.directory (name ++ ".json")

theorem stem_eq_self_iff (id : String) : stem id = id ↔ occurs ['.', 'j', 's'] id.toList = false := by
  rw [stem, occurs]
  cases hbefore : before? ['.', 'j', 's'] id.toList with
  | none => simp
  | some front =>
      obtain ⟨back, hback⟩ := eq_append_of_before? hbefore
      simp only [Option.getD_some, Option.isSome_some, Bool.true_eq_false, iff_false]
      intro hsame
      have hlength := congrArg List.length hback
      rw [← hsame] at hlength
      simp at hlength

theorem idOfUrl?_moduleUrl (host : Host) {id : String} (h : Address.Hosted id.toList) :
    host.idOfUrl? (host.moduleUrl id) = some (stem id) := by
  obtain ⟨c, rest, hid, hc⟩ := h.exists_head
  have hurl : (host.moduleUrl id).toList =
      host.base ++ ('/' :: (id.toList ++ ['.', 'j', 's'] ++ ("?v=".toList ++ host.version.toList))) := by
    simp [Host.moduleUrl, Host.moduleChars]
  have hslashes : ('/' :: (id.toList ++ ['.', 'j', 's'] ++ ("?v=".toList ++ host.version.toList))).dropWhile
      (· == '/') = id.toList ++ ['.', 'j', 's'] ++ ("?v=".toList ++ host.version.toList) := by
    rw [List.dropWhile_cons_of_pos (by decide), hid]
    exact List.dropWhile_cons_of_neg (by simpa using hc)
  rw [Host.idOfUrl?, hurl, dropFront?_append, Option.bind_eq_bind, Option.bind_some, hslashes,
    before?_append_script]
  rfl

theorem path_moduleUrl (l : Library) {id : String} (h : Address.Hosted id.toList) :
    l.path (l.host.moduleUrl id) = .ok (l.fileNamed (stem id)) := by
  rw [path, idOfUrl?_moduleUrl l.host h]
  rfl

theorem fileNamed_injective (l : Library) {a b : String} (h : l.fileNamed a = l.fileNamed b) : a = b := by
  have hjson := Files.join_injective l.directory h
  simpa using hjson

theorem isRelative_of_hosted {id : String} (h : Address.Hosted id.toList) :
    Files.IsRelative (id ++ ".json") := by
  obtain ⟨c, rest, hid, hc⟩ := h.exists_head
  exact ⟨c, rest ++ ".json".toList, by simp [hid], hc⟩

/-- Every step of the file with this name is plain. -/
def PlainName (name : String) : Prop :=
  ∀ step ∈ Files.steps (name ++ ".json"), Files.IsPlainStep step
deriving Decidable

/-- The file of a hosted notebook is that of the stem of its id. So it is the file of the id exactly if the id
has no `.js`, two ids have one path exactly if they have one stem, and ids without `.js` and dotted steps have
files of their own. -/
theorem notebook_file_is_stem_file (l : Library) {a b : String} (ha : Address.Hosted a.toList)
    (hb : Address.Hosted b.toList) :
    l.path (l.host.moduleUrl a) = .ok (l.fileNamed (stem a)) ∧
      (l.path (l.host.moduleUrl a) = .ok (l.fileNamed a) ↔ occurs ['.', 'j', 's'] a.toList = false) ∧
      (l.path (l.host.moduleUrl a) = l.path (l.host.moduleUrl b) ↔ stem a = stem b) ∧
      (occurs ['.', 'j', 's'] a.toList = false → occurs ['.', 'j', 's'] b.toList = false →
        PlainName a → PlainName b →
          ∃ p q, l.path (l.host.moduleUrl a) = .ok p ∧ l.path (l.host.moduleUrl b) = .ok q ∧
            (Files.placeOf p = Files.placeOf q ↔ a = b)) := by
  rw [path_moduleUrl l ha, path_moduleUrl l hb]
  refine ⟨rfl, ?_, ?_, fun hscript hscript' hplain hplain' => ?_⟩
  · rw [Except.ok.injEq, ← stem_eq_self_iff]
    exact ⟨fun h => l.fileNamed_injective h, fun h => by rw [h]⟩
  · rw [Except.ok.injEq]
    exact ⟨fun h => l.fileNamed_injective h, fun h => by rw [h]⟩
  · rw [(stem_eq_self_iff a).mpr hscript, (stem_eq_self_iff b).mpr hscript']
    refine ⟨_, _, rfl, rfl, fun hplace => ?_, fun h => by rw [h]⟩
    have hpath := Files.placeOf_join_inj l.directory (isRelative_of_hosted ha) (isRelative_of_hosted hb)
      hplain hplain' hplace
    simpa using hpath

theorem hosted_scripted : Address.Hosted "@o/a.js".toList :=
  ⟨by decide, by decide, Address.isHostedId_iff.mp (by decide)⟩

theorem hosted_unscripted : Address.Hosted "@o/a".toList :=
  ⟨by decide, by decide, Address.isHostedId_iff.mp (by decide)⟩

theorem hosted_document : Address.Hosted "d/a".toList :=
  ⟨by decide, by decide, Address.isHostedId_iff.mp (by decide)⟩

/-- An id with a `.js` of its own, one without and a document, at an origin that has a `.js` too. -/
theorem notebook_file_is_stem_file_scripted :
    let l : Library := { files := {}, directory := "lib/", host := { origin := "https://o.js//" } }
    l.path (l.host.moduleUrl "@o/a.js") = l.path (l.host.moduleUrl "@o/a") ∧
      l.path (l.host.moduleUrl "@o/a") = .ok "lib/@o/a.json" ∧
      ∃ p q, l.path (l.host.moduleUrl "@o/a") = .ok p ∧ l.path (l.host.moduleUrl "d/a") = .ok q ∧
        Files.placeOf p ≠ Files.placeOf q := by
  intro l
  have hscripted := notebook_file_is_stem_file l hosted_scripted hosted_unscripted
  obtain ⟨-, hfile, -, hplaces⟩ := notebook_file_is_stem_file l hosted_unscripted hosted_document
  refine ⟨hscripted.2.2.1.mpr (by decide), (hfile.mpr (by decide)).trans (by decide +kernel), ?_⟩
  obtain ⟨p, q, hp, hq, hplace⟩ := hplaces (by decide) (by decide) (by decide +kernel) (by decide +kernel)
  exact ⟨p, q, hp, hq, fun h => absurd (hplace.mp h) (by decide)⟩

/-- The notebook `@o/a.js` has no file of its own: it is served from the file of `@o/a`. -/
theorem scripted_notebook_has_no_file :
    let l : Library := { files := {}, directory := "lib", host := {} }
    Address.Hosted "@o/a.js".toList ∧ Address.Hosted "@o/a".toList ∧
      l.path (l.host.moduleUrl "@o/a.js") ≠ .ok "lib/@o/a.js.json" ∧
      l.path (l.host.moduleUrl "@o/a.js") = l.path (l.host.moduleUrl "@o/a") := by
  intro l
  refine ⟨hosted_scripted, hosted_unscripted, ?_⟩
  rw [path_moduleUrl l hosted_scripted, path_moduleUrl l hosted_unscripted]
  exact ⟨by decide +kernel, by decide +kernel⟩

end Library

end CellGraph
