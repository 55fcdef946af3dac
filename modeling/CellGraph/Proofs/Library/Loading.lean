import CellGraph.Proofs.Library.Wiring
import Mathlib.Data.Finset.Card
import Mathlib.Logic.Function.Iterate

/-!
# Loading

Loading an address is a recursion through whole compilations. `step` is one round of it, over some loader
for the addresses further down, and `Round` says all that can come of a round.

The loader of a library goes down a limited number of rounds. That the limit is never reached is said by
comparing it with any larger number of rounds, over any loader at all at the bottom
(`loadWithin_eq_iterate`): an address that is read was not being loaded before, so each round uses up one of
the addresses that the files mention (`room`). So there is one loader, `load`, which is a round over itself
(`load_eq`), and with which every notebook is compiled (`compile_eq`). The same count gives the induction
for what every call does (`load_induction`).
-/

namespace CellGraph

open Assembly CellGraph.Graph

/-- What is read from the files is the text of one of them. -/
theorem Files.mem_of_follow {files : Files} {directory steps : List String} {text : String}
    (h : files.follow directory steps = .ok text) : ∃ place, (place, text) ∈ files.entries := by
  induction steps generalizing directory with
  | nil => cases h
  | cons step steps ih =>
      simp only [follow] at h
      split at h
      · exact ih h
      · split at h
        · cases h
        · split at h
          · next found hfound =>
              split at h
              · cases h
                obtain ⟨before, after, hentries, -⟩ := List.lookup_eq_some_iff.mp hfound
                exact ⟨move directory step, by rw [hentries]; simp⟩
              · cases h
          · split at h
            · exact ih h
            · cases h

namespace Library

variable {l : Library} {below below' : Load} {n : Notebook} {s : State} {url : String}

/-! ## One round -/

section

variable [Text.IdentifierTable]

/-- One round of loading, over a loader for the addresses further down. -/
def step (l : Library) (below : Load) : Load := fun url s =>
  match s.loaded.lookup url with
  | some m => (.ok m, s)
  | none =>
    if url ∈ s.loading then (.error (.resolve url "import cycle"), s)
    else
      let (result, s) := l.readWith below url { s with loading := url :: s.loading }
      let s := { s with loading := s.loading.erase url }
      match result with
      | .error e => (.error e, s)
      | .ok m => (.ok m, { s with loaded := (url, m) :: s.loaded })

theorem loadWithin_succ (l : Library) (depth : Nat) :
    l.loadWithin (depth + 1) = l.step (l.loadWithin depth) := by
  funext url s
  rw [loadWithin]
  rfl

/-- The state in which the notebook at an address is compiled. -/
def State.opened (s : State) (url : String) : State :=
  { s with loading := url :: s.loading }

/-- The state after that. -/
def State.closed (s : State) (url : String) : State :=
  { s with loading := s.loading.erase url }

/-- What can come of a round. -/
inductive Round (l : Library) (below : Load) (url : String) (s : State) :
    Except Error ModuleId × State → Prop where
  | reused {m : ModuleId} (hloaded : s.loaded.lookup url = some m) : Round l below url s (.ok m, s)
  | cycle (hnew : s.loaded.lookup url = none) (hloading : url ∈ s.loading) :
      Round l below url s (.error (.resolve url "import cycle"), s)
  | unread {e : Error} (hnew : s.loaded.lookup url = none) (hfree : url ∉ s.loading)
      (hnotebook : l.notebook url = .error e) : Round l below url s (.error e, s)
  | failed {n : Notebook} {e : Error} {t : State} (hnew : s.loaded.lookup url = none)
      (hfree : url ∉ s.loading) (hnotebook : l.notebook url = .ok n)
      (hcompile : l.compileWith below n (s.opened url) = (.error e, t)) :
      Round l below url s (.error e, t.closed url)
  | compiled {n : Notebook} {m : ModuleId} {t : State} (hnew : s.loaded.lookup url = none)
      (hfree : url ∉ s.loading) (hnotebook : l.notebook url = .ok n)
      (hcompile : l.compileWith below n (s.opened url) = (.ok m, t)) :
      Round l below url s (.ok m, { t.closed url with loaded := (url, m) :: t.loaded })

theorem round_step (l : Library) (below : Load) (url : String) (s : State) :
    Round l below url s (l.step below url s) := by
  unfold step
  cases hlookup : s.loaded.lookup url with
  | some m => exact .reused hlookup
  | none =>
      by_cases hloading : url ∈ s.loading
      · simp only [if_pos hloading]
        exact .cycle hlookup hloading
      · simp only [if_neg hloading, readWith]
        cases hnotebook : l.notebook url with
        | error e =>
            have hround : Round l below url s (.error e, s) := .unread hlookup hloading hnotebook
            simpa using hround
        | ok n =>
            rcases hcompile : l.compileWith below n (s.opened url) with ⟨e | m, t⟩
            · simp only [State.opened] at hcompile
              simp only [hcompile]
              exact .failed hlookup hloading hnotebook hcompile
            · simp only [State.opened] at hcompile
              simp only [hcompile]
              exact .compiled hlookup hloading hnotebook hcompile

/-! ## What a call leaves alone -/

/-- A loader that leaves alone what is not its own: it touches the table of no module that is there, and in
the end the addresses being loaded are those of before. -/
structure Regular (below : Load) : Prop where
  spares : Spares below
  restores : ∀ url s, (below url s).2.loading = s.loading

theorem Regular.restores_compileWith (h : Regular below) (l : Library) (n : Notebook) (s : State) :
    (l.compileWith below n s).2.loading = s.loading := by
  have hcall : ∀ {url t result t'}, t.loading = s.loading → below url t = (result, t') →
      t'.loading = s.loading := by
    intro url t result t' ht hload
    have hrestored := h.restores url t
    rw [hload] at hrestored
    exact hrestored.trans ht
  have hinvariant : Invariant l below n s (fun _ t => t.loading = s.loading)
      (fun _ _ t => t.loading = s.loading) :=
    ⟨fun _ ht => ht, fun _ ht _ hload => hcall ht hload, fun _ ht _ hload => hcall ht hload, fun ht _ => ht⟩
  obtain ⟨hok, herror⟩ := hinvariant.compileWith h.spares rfl
  rcases hcompile : l.compileWith below n s with ⟨e | m, t⟩
  · exact herror e t hcompile
  · exact (hok m t hcompile).1

theorem Regular.step (h : Regular below) : Regular (l.step below) := by
  have hloading : ∀ {url s n result t}, l.compileWith below n (State.opened s url) = (result, t) →
      t.loading.erase url = s.loading := by
    intro url s n result t hcompile
    have hrestored := h.restores_compileWith l n (s.opened url)
    rw [hcompile] at hrestored
    rw [show t.loading = url :: s.loading from hrestored, List.erase_cons_head]
  have hgraph : ∀ {url s n result t}, s.graph.Tidy →
      l.compileWith below n (State.opened s url) = (result, t) → ∀ m, Appends m [] s.graph t.graph := by
    intro url s n result t htidy hcompile
    have happends := (compileWith_appends l h.spares n (s := s.opened url) htidy).1
    rw [hcompile] at happends
    exact happends
  constructor
  · intro url s htidy m
    have hround := round_step l below url s
    generalize l.step below url s = out at hround
    cases hround with
    | reused | cycle | unread => exact htidy.appends_refl m
    | failed _ _ _ hcompile | compiled _ _ _ hcompile => exact hgraph htidy hcompile m
  · intro url s
    have hround := round_step l below url s
    generalize l.step below url s = out at hround
    cases hround with
    | reused | cycle | unread => rfl
    | failed _ _ _ hcompile | compiled _ _ _ hcompile => exact hloading hcompile

/-- The loader of a library is such a loader, however deep it may go. -/
theorem regular_loadWithin (l : Library) (depth : Nat) : Regular (l.loadWithin depth) := by
  induction depth with
  | zero =>
      have hstill : ∀ url s, (l.loadWithin 0 url s).2 = s := by
        intro url s
        rw [loadWithin]
        split
        · rfl
        · split <;> rfl
      refine ⟨fun url s htidy m => ?_, fun url s => ?_⟩
      · rw [hstill]
        exact htidy.appends_refl m
      · rw [hstill]
  | succ depth ih =>
      rw [loadWithin_succ]
      exact ih.step

end

/-! ## How deep loading goes -/

/-- The addresses that the notebooks among the files import from. -/
def known (l : Library) : List String :=
  l.files.entries.flatMap fun entry => ((Notebook.parse? entry.2).map l.targets).getD []

/-- A notebook that can be loaded imports from addresses that are known. -/
theorem mem_known {u v : String} (hnotebook : l.notebook u = .ok n) (hv : v ∈ l.targets n) :
    v ∈ l.known := by
  simp only [notebook, bind, Except.bind] at hnotebook
  split at hnotebook
  · cases hnotebook
  · next path hpath =>
      split at hnotebook
      · cases hnotebook
      · next text htext =>
          split at hnotebook
          · next m hparse =>
              cases hnotebook
              simp only [Files.read] at htext
              obtain ⟨place, hplace⟩ : ∃ place, (place, text) ∈ l.files.entries := by
                split at htext
                · cases htext
                · split at htext
                  · cases htext
                  · split at htext
                    · cases htext
                    · exact Files.mem_of_follow htext
              exact List.mem_flatMap.mpr ⟨(place, text), hplace, by simpa [hparse] using hv⟩
          · cases hnotebook

/-- The depth that a library allows for is the number of imports in a notebook and in all files. -/
theorem depth_eq (l : Library) (n : Notebook) : l.depth n = (l.targets n ++ l.known).length := by
  have hcount : ∀ k : Notebook, importCount k = (l.targets k).length := by
    intro k
    simp only [importCount, targets, importCells, List.length_map, List.length_filterMap_eq_countP]
    refine List.countP_congr fun cell _ => ?_
    cases cell <;> simp
  have hsum : ∀ (entries : List (List String × String)) (total : Nat),
      entries.foldl (fun total entry =>
          total + ((Notebook.parse? entry.2).map importCount).getD 0) total =
        total + (entries.flatMap fun entry =>
          ((Notebook.parse? entry.2).map l.targets).getD []).length := by
    intro entries
    induction entries with
    | nil => simp
    | cons entry entries ih =>
        intro total
        have hfirst : ((Notebook.parse? entry.2).map importCount).getD 0 =
            (((Notebook.parse? entry.2).map l.targets).getD []).length := by
          cases Notebook.parse? entry.2 with
          | none => rfl
          | some k => exact hcount k
        rw [List.foldl_cons, ih, List.flatMap_cons, List.length_append, ← hfirst, Nat.add_assoc]
  rw [depth, hsum, hcount, List.length_append, known]

/-- How many of some addresses are not being loaded. -/
def room (urls : List String) (s : State) : Nat :=
  (urls.toFinset \ s.loading.toFinset).card

theorem room_le_length (urls : List String) (s : State) : room urls s ≤ urls.length :=
  (Finset.card_le_card Finset.sdiff_subset).trans (List.toFinset_card_le urls)

/-- Reading an address that is not being loaded takes up room. -/
theorem room_opened_lt {urls : List String} (hurl : url ∈ urls) (hfree : url ∉ s.loading) :
    room urls (s.opened url) < room urls s := by
  refine Finset.card_lt_card (Finset.ssubset_iff_of_subset ?_ |>.mpr ⟨url, ?_, ?_⟩)
  · intro u hu
    simp only [State.opened, List.toFinset_cons, Finset.mem_sdiff, Finset.mem_insert] at hu ⊢
    exact ⟨hu.1, fun hmem => hu.2 (Or.inr hmem)⟩
  · simp [hurl, hfree]
  · simp [State.opened]

theorem room_congr (urls : List String) {t : State} (h : t.loading = s.loading) :
    room urls t = room urls s := by
  rw [room, room, h]

/-- What holds of a call of the loader if it holds of the calls further down holds of every call: each
address that is read is one more of those being loaded. -/
theorem load_induction {motive : String → State → Prop}
    (h : ∀ url s, (url ∉ s.loading → ∀ n, l.notebook url = .ok n → ∀ v ∈ l.targets n,
      ∀ t : State, t.loading = url :: s.loading → motive v t) → motive url s)
    (url : String) (s : State) : motive url s := by
  have hall : ∀ (room₀ : Nat) (u : String) (t : State), u ∈ url :: l.known →
      room (url :: l.known) t = room₀ → motive u t := by
    intro room₀
    induction room₀ using Nat.strong_induction_on with
    | _ room₀ ih =>
        intro u t hu hroom
        refine h u t fun hfree n hnotebook v hv t' ht' => ?_
        have hless : room (url :: l.known) t' < room₀ := by
          rw [room_congr (s := t.opened u) _ ht', ← hroom]
          exact room_opened_lt hu hfree
        exact ih _ hless v t' (List.mem_cons_of_mem _ (mem_known hnotebook hv)) rfl
  exact hall _ url s List.mem_cons_self rfl

variable [Text.IdentifierTable]

/-- A round depends on the loader further down only through the compilation of its notebook. -/
theorem step_congr (h : url ∉ s.loading → ∀ n, l.notebook url = .ok n →
    l.compileWith below n (s.opened url) = l.compileWith below' n (s.opened url)) :
    l.step below url s = l.step below' url s := by
  unfold step
  cases s.loaded.lookup url with
  | some m => rfl
  | none =>
      by_cases hloading : url ∈ s.loading
      · simp only [if_pos hloading]
      · simp only [if_neg hloading, readWith]
        cases hnotebook : l.notebook url with
        | error e => rfl
        | ok n =>
            have hsame := h hloading n hnotebook
            simp only [State.opened] at hsame
            simp only [hsame]

/-- With as many rounds as there is room, the limit is not reached: more rounds, whatever is at the bottom
of them, come to the same. -/
theorem loadWithin_eq_iterate {urls : List String} (hknown : ∀ u ∈ l.known, u ∈ urls) (bottom : Load)
    {depth rounds : Nat} (hurl : url ∈ urls) (hdepth : room urls s ≤ depth)
    (hrounds : room urls s < rounds) : l.loadWithin depth url s = l.step^[rounds] bottom url s := by
  induction depth generalizing rounds url s with
  | zero =>
      obtain ⟨rounds, rfl⟩ := Nat.exists_eq_add_one_of_ne_zero (Nat.ne_zero_of_lt hrounds)
      rw [Function.iterate_succ_apply', loadWithin, step]
      cases s.loaded.lookup url with
      | some m => rfl
      | none =>
          by_cases hloading : url ∈ s.loading
          · simp only [if_pos hloading]
          · exact absurd hdepth (Nat.not_le_of_lt (Nat.zero_lt_of_lt (room_opened_lt hurl hloading)))
  | succ depth ih =>
      obtain ⟨rounds, rfl⟩ := Nat.exists_eq_add_one_of_ne_zero (Nat.ne_zero_of_lt hrounds)
      rw [Function.iterate_succ_apply', loadWithin_succ]
      refine step_congr fun hfree n hnotebook => ?_
      have hless := room_opened_lt hurl hfree
      -- the addresses being loaded are the same at each call
      refine compileWith_congr (P := fun t => t.loading = url :: s.loading) (fun _ _ ht => ht)
        (fun u t hu ht => ?_) rfl
      have hroom : room urls t = room urls (s.opened url) := room_congr urls ht
      have hsame : l.loadWithin depth u t = l.step^[rounds] bottom u t :=
        ih (hknown u (mem_known hnotebook hu)) (by omega) (by omega)
      exact ⟨hsame, ((regular_loadWithin l depth).restores u t).trans ht⟩

/-- The loader of a library. -/
def load (l : Library) : Load :=
  l.loadWithin (l.known.length + 1)

theorem regular_load (l : Library) : Regular l.load :=
  regular_loadWithin l _

/-- With any loader at the bottom, enough rounds of loading are the loader of the library. -/
theorem iterate_eq_load {urls : List String} (hknown : ∀ u ∈ l.known, u ∈ urls) (bottom : Load)
    (hurl : url ∈ urls) {rounds : Nat} (hrounds : room urls s < rounds) :
    l.step^[rounds] bottom url s = l.load url s := by
  have hroom := room_le_length (url :: l.known) s
  rw [List.length_cons] at hroom
  let enough := room urls s + l.known.length + 2
  calc l.step^[rounds] bottom url s
      = l.loadWithin (room urls s) url s := (loadWithin_eq_iterate hknown bottom hurl le_rfl hrounds).symm
    _ = l.step^[enough] bottom url s := loadWithin_eq_iterate hknown bottom hurl le_rfl (by omega)
    _ = l.load url s := (loadWithin_eq_iterate (fun _ hu => List.mem_cons_of_mem _ hu) bottom
        List.mem_cons_self hroom (by omega)).symm

/-- Loading is one round over loading. -/
theorem load_eq (l : Library) : l.load = l.step l.load := by
  funext url s
  have hroom := room_le_length (url :: l.known) s
  rw [List.length_cons] at hroom
  have hknown : ∀ u ∈ l.known, u ∈ url :: l.known := fun _ hu => List.mem_cons_of_mem _ hu
  calc l.load url s
      = l.step^[l.known.length + 2] l.load url s :=
        (iterate_eq_load hknown l.load List.mem_cons_self (by omega)).symm
    _ = l.loadWithin (l.known.length + 2) url s :=
        (loadWithin_eq_iterate hknown l.load List.mem_cons_self (by omega) (by omega)).symm
    _ = l.step l.load url s := by rw [loadWithin_succ, load]

/-- What a call of the loader can come to. -/
theorem round_load (l : Library) (url : String) (s : State) : Round l l.load url s (l.load url s) := by
  have hround := round_step l l.load url s
  rwa [← load_eq] at hround

/-- With any loader at the bottom, a notebook is compiled in the same way over all numbers of rounds above
the number of imports that there are. -/
theorem compileWith_iterate (l : Library) (n : Notebook) (s : State) (bottom : Load) {rounds : Nat}
    (hrounds : l.depth n < rounds) :
    l.compileWith (l.step^[rounds] bottom) n s = l.compileWith l.load n s := by
  rw [depth_eq] at hrounds
  refine compileWith_congr (P := fun _ => True) (fun _ _ _ => trivial)
    (fun url t hurl _ => ⟨?_, trivial⟩) trivial
  have hroom := room_le_length (l.targets n ++ l.known) t
  exact iterate_eq_load (fun _ hu => List.mem_append_right _ hu) bottom (List.mem_append_left _ hurl)
    (by omega)

/-- A notebook is compiled with the loader of the library. -/
theorem compile_eq (l : Library) (n : Notebook) (s : State) : l.compile n s = l.compileWith l.load n s := by
  refine compileWith_congr (P := fun _ => True) (fun _ _ _ => trivial)
    (fun url t hurl _ => ⟨?_, trivial⟩) trivial
  have hroom := room_le_length (l.targets n ++ l.known) t
  have hknown : ∀ u ∈ l.known, u ∈ l.targets n ++ l.known := fun _ hu => List.mem_append_right _ hu
  have hurl' : url ∈ l.targets n ++ l.known := List.mem_append_left _ hurl
  rw [← depth_eq] at hroom
  rw [loadWithin_eq_iterate hknown l.load hurl' hroom (Nat.lt_succ_of_le hroom)]
  exact iterate_eq_load hknown l.load hurl' (Nat.lt_succ_of_le hroom)

end Library

end CellGraph
