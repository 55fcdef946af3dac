import CellGraph.Proofs.Library.Loading

/-!
# The books of a library

A run of a library serves demands, each for the module at an address or for the module of a notebook.
Serving one makes calls of the loader, and these make further calls; `Trace` lists all of them in the order
in which they return.

`Books` compares the state after some calls with the one before. The addresses being loaded are the same,
however the calls end. To those that are loaded exactly the addresses are added whose notebooks were
compiled in between, each once, and every import of one address was answered with the same module. Books of
calls in a row go together (`Books.trans`), and so the books of a call come from those of the calls that it
makes (`accounted_compileWith`, `accounted_load`).
-/

namespace CellGraph

open Assembly

namespace Library

variable [Text.IdentifierTable] {l : Library} {n : Notebook} {s s' t : State} {url : String}

/-! ## Calls -/

/-- The calls of the loader that a call makes itself. -/
def direct (l : Library) (call : String × State) : List (String × State) :=
  if (call.2.loaded.lookup call.1).isSome ∨ call.1 ∈ call.2.loading then []
  else match l.notebook call.1 with
    | .error _ => []
    | .ok n => l.calls l.load n (call.2.opened call.1)

/-- Calls that are made in a row, and all calls that come of them, in the order in which they return. -/
inductive Trace (l : Library) : List (String × State) → List (String × State) → Prop where
  | nil : Trace l [] []
  | cons {call : String × State} {calls below after : List (String × State)} :
      Trace l (l.direct call) below → Trace l calls after → Trace l (call :: calls) (below ++ call :: after)

theorem Trace.append {calls calls' all all' : List (String × State)} (h : Trace l calls all)
    (h' : Trace l calls' all') : Trace l (calls ++ calls') (all ++ all') := by
  induction h with
  | nil => exact h'
  | cons hbelow _ _ ih =>
      rw [List.append_assoc, List.cons_append]
      exact .cons hbelow ih

theorem Trace.single {call : String × State} {calls below : List (String × State)}
    (hdirect : l.direct call = calls) (h : Trace l calls below) : Trace l [call] (below ++ [call]) := by
  subst hdirect
  exact .cons h .nil

theorem Trace.subset {calls all : List (String × State)} (h : Trace l calls all) : calls ⊆ all := by
  induction h with
  | nil => exact List.Subset.refl _
  | @cons call calls below after _ _ _ ih =>
      refine List.cons_subset.mpr ⟨by simp, fun other hother => ?_⟩
      exact List.mem_append_right _ (List.mem_cons_of_mem _ (ih hother))

/-- What a call that compiles the notebook at its address adds to those that are loaded. -/
def entry? (l : Library) (call : String × State) : Option (String × ModuleId) :=
  match call.2.loaded.lookup call.1, (l.load call.1 call.2).1 with
  | none, .ok m => some (call.1, m)
  | _, _ => none

theorem entry?_of_error {e : Error} (h : l.load url s = (.error e, t)) : l.entry? (url, s) = none := by
  unfold entry?
  simp only [h]
  split
  · next hok => cases hok
  · rfl

theorem entry?_of_ok {m : ModuleId} (h : l.load url s = (.ok m, t)) :
    l.entry? (url, s) = if (s.loaded.lookup url).isSome then none else some (url, m) := by
  unfold entry?
  simp only [h]
  cases s.loaded.lookup url <;> rfl

/-- The addresses whose notebooks are compiled by some calls, with the modules. -/
def compiled (l : Library) (calls : List (String × State)) : List (String × ModuleId) :=
  calls.filterMap l.entry?

theorem compiled_append (l : Library) (calls calls' : List (String × State)) :
    l.compiled (calls ++ calls') = l.compiled calls ++ l.compiled calls' :=
  List.filterMap_append

theorem compiled_singleton (l : Library) (call : String × State) :
    l.compiled [call] = (l.entry? call).toList := by
  rw [compiled, List.filterMap_cons]
  cases l.entry? call <;> rfl

/-! ## Books -/

/-- A call that compiled a notebook: the notebook was read, its cells were registered in the module, and each
of its imports was wired and is loaded. -/
structure Finished (l : Library) (loaded : List (String × ModuleId)) (call : String × State) (m : ModuleId)
    (n : Notebook) (a : Assembly State ModuleId Slot) : Prop where
  notebook : l.notebook call.1 = .ok n
  compile : Assembly.compile kit (l.resolver l.load) n.cells none (call.2.opened call.1) = (.ok (), a)
  home : a.home = m
  pending : a.pending = []
  groups : List.Forall₂ Group.Fits (importCells n.cells) a.groups
  imports : ∀ v ∈ l.targets n, ∃ k, loaded.lookup v = some k

/-- What the state after some calls is to the state before. -/
structure Books (l : Library) (s : State) (calls : List (String × State)) (s' : State) : Prop where
  loading : s'.loading = s.loading
  loaded : s'.loaded = (l.compiled calls).reverse ++ s.loaded
  once : ((l.compiled calls).map Prod.fst).Nodup
  fresh : ∀ u ∈ (l.compiled calls).map Prod.fst, s.loaded.lookup u = none ∧ u ∉ s.loading
  served : ∀ call ∈ calls, ∀ m, (l.load call.1 call.2).1 = .ok m → s'.loaded.lookup call.1 = some m
  finished : ∀ call ∈ calls, ∀ u m, l.entry? call = some (u, m) → ∃ n a, Finished l s'.loaded call m n a

theorem Books.nil (l : Library) (s : State) : Books l s [] s :=
  ⟨rfl, rfl, .nil, nofun, nofun, nofun⟩

/-- The graph plays no part. -/
theorem Books.graph {calls : List (String × State)} (h : Books l s calls s') (g : Graph Unit) :
    Books l s calls { s' with graph := g } :=
  ⟨h.loading, h.loaded, h.once, h.fresh, h.served, h.finished⟩

/-- An address whose notebook was not compiled in between is as before. -/
theorem Books.lookup_eq {calls : List (String × State)} (h : Books l s calls s') {u : String}
    (hu : u ∉ (l.compiled calls).map Prod.fst) : s'.loaded.lookup u = s.loaded.lookup u := by
  have hnew : (l.compiled calls).reverse.lookup u = none := by
    rw [List.lookup_eq_none_iff]
    rintro ⟨v, m⟩ hv
    rw [bne_iff_ne]
    rintro rfl
    exact hu (List.mem_map_of_mem (List.mem_reverse.mp hv))
  rw [h.loaded, List.lookup_append, hnew, Option.none_or]

/-- What is loaded stays loaded. -/
theorem Books.kept {calls : List (String × State)} (h : Books l s calls s') {u : String} {m : ModuleId}
    (hu : s.loaded.lookup u = some m) : s'.loaded.lookup u = some m := by
  rw [h.lookup_eq, hu]
  intro hmem
  rw [(h.fresh u hmem).1] at hu
  cases hu

/-- The addresses whose notebooks were compiled are loaded. -/
theorem Books.lookup_ne_none {calls : List (String × State)} (h : Books l s calls s') {u : String}
    (hu : u ∈ (l.compiled calls).map Prod.fst) : s'.loaded.lookup u ≠ none := by
  intro hnone
  obtain ⟨⟨v, m⟩, hentry, rfl⟩ := List.mem_map.mp hu
  have hmem : (v, m) ∈ s'.loaded := by
    rw [h.loaded]
    exact List.mem_append_left _ (List.mem_reverse.mpr hentry)
  have hdiffers := List.lookup_eq_none_iff.mp hnone (v, m) hmem
  simp at hdiffers

/-- Books of calls in a row. -/
theorem Books.trans {calls calls' : List (String × State)} (h : Books l s calls t)
    (h' : Books l t calls' s') : Books l s (calls ++ calls') s' where
  loading := h'.loading.trans h.loading
  loaded := by
    rw [h'.loaded, h.loaded, compiled_append, List.reverse_append, List.append_assoc]
  once := by
    rw [compiled_append, List.map_append]
    refine List.Nodup.append h.once h'.once fun u hu hu' => ?_
    exact h.lookup_ne_none hu (h'.fresh u hu').1
  fresh u hu := by
    rw [compiled_append, List.map_append, List.mem_append] at hu
    rcases hu with hu | hu
    · exact h.fresh u hu
    · obtain ⟨hloaded, hloading⟩ := h'.fresh u hu
      rw [h.loading] at hloading
      refine ⟨Option.eq_none_iff_forall_ne_some.mpr fun m hm => ?_, hloading⟩
      rw [h.kept hm] at hloaded
      cases hloaded
  served call hcall m hm := by
    rcases List.mem_append.mp hcall with hfirst | hsecond
    · exact h'.kept (h.served call hfirst m hm)
    · exact h'.served call hsecond m hm
  finished call hcall u m hentry := by
    rcases List.mem_append.mp hcall with hfirst | hsecond
    · obtain ⟨n, a, hfinished⟩ := h.finished call hfirst u m hentry
      refine ⟨n, a, { hfinished with imports := fun v hv => ?_ }⟩
      obtain ⟨k, hk⟩ := hfinished.imports v hv
      exact ⟨k, h'.kept hk⟩
    · exact h'.finished call hsecond u m hentry

/-- The books of one call, kept apart from those of the calls that it makes. -/
theorem Books.single {call : String × State} (hloading : s'.loading = t.loading)
    (hloaded : s'.loaded = (l.entry? call).toList ++ t.loaded)
    (hserved : ∀ m, (l.load call.1 call.2).1 = .ok m → s'.loaded.lookup call.1 = some m)
    (hentry : ∀ u m, l.entry? call = some (u, m) →
      (t.loaded.lookup u = none ∧ u ∉ t.loading) ∧ ∃ n a, Finished l s'.loaded call m n a) :
    Books l t [call] s' where
  loading := hloading
  loaded := by
    rw [hloaded, compiled_singleton]
    cases l.entry? call <;> rfl
  once := by
    rw [compiled_singleton]
    cases l.entry? call <;> simp
  fresh u hu := by
    rw [compiled_singleton] at hu
    obtain ⟨⟨u, m⟩, hmem, rfl⟩ := List.mem_map.mp hu
    exact (hentry u m (Option.mem_toList.mp hmem)).1
  served other hother m hm := by
    rw [List.mem_singleton.mp hother] at hm ⊢
    exact hserved m hm
  finished other hother u m hsome := by
    rw [List.mem_singleton.mp hother] at hsome ⊢
    exact (hentry u m hsome).2

/-- The books of the calls that a call makes, once its address is not being loaded any more. -/
theorem Books.closed {calls : List (String × State)} (h : Books l (s.opened url) calls t) :
    Books l s calls (t.closed url) where
  loading := by
    have hloading : t.loading = url :: s.loading := h.loading
    simp [State.closed, hloading]
  loaded := h.loaded
  once := h.once
  fresh u hu := ⟨(h.fresh u hu).1, fun hmem => (h.fresh u hu).2 (List.mem_cons_of_mem _ hmem)⟩
  served := h.served
  finished := h.finished

/-! ## Every call -/

/-- Calls, all that come of them, and the books of these. -/
def Accounted (l : Library) (s : State) (calls : List (String × State)) (s' : State) : Prop :=
  ∃ all, Trace l calls all ∧ Books l s all s'

theorem Accounted.trans {calls calls' : List (String × State)} (h : l.Accounted s calls t)
    (h' : l.Accounted t calls' s') : l.Accounted s (calls ++ calls') s' := by
  obtain ⟨all, htrace, hbooks⟩ := h
  obtain ⟨all', htrace', hbooks'⟩ := h'
  exact ⟨all ++ all', htrace.append htrace', hbooks.trans hbooks'⟩

/-- A notebook that is compiled has books if the calls that this makes have, and in the end all addresses
are loaded that it imports from. -/
theorem accounted_compileWith (hload : ∀ u ∈ l.targets n, ∀ t : State, t.loading = s.loading →
    l.Accounted t [(u, t)] (l.load u t).2) :
    l.Accounted s (l.calls l.load n s) (l.compileWith l.load n s).2 ∧
      ∀ m t, l.compileWith l.load n s = (.ok m, t) → ∀ u ∈ l.targets n, ∃ k, t.loaded.lookup u = some k := by
  have hcall : ∀ {calls u t result t'}, u ∈ l.targets n → l.Accounted s calls t →
      l.load u t = (result, t') → l.Accounted s (calls ++ [(u, t)]) t' := by
    intro calls u t result t' hu ht hcall
    obtain ⟨all, htrace, hbooks⟩ := ht
    have hnext := hload u hu t hbooks.loading
    rw [hcall] at hnext
    exact Accounted.trans ⟨all, htrace, hbooks⟩ hnext
  have hgraph : ∀ {calls t} g, l.Accounted s calls t → l.Accounted s calls { t with graph := g } := by
    rintro calls t g ⟨all, htrace, hbooks⟩
    exact ⟨all, htrace, hbooks.graph g⟩
  have hinvariant : Invariant l l.load n s
      (fun calls t => l.Accounted s calls t ∧ ∀ call ∈ calls, ∃ m, (l.load call.1 call.2).1 = .ok m)
      (fun calls _ t => l.Accounted s calls t) := by
    refine ⟨fun g ht => ⟨hgraph g ht.1, ht.2⟩, fun hu ht _ hok => ⟨hcall hu ht.1 hok, ?_⟩,
      fun hu ht _ herror => hcall hu ht.1 herror, fun ht _ => hgraph _ ht.1⟩
    intro call hmem
    rcases List.mem_append.mp hmem with hbefore | hlast
    · exact ht.2 call hbefore
    · rw [List.mem_singleton.mp hlast, hok]
      exact ⟨_, rfl⟩
  obtain ⟨hok, herror⟩ :=
    hinvariant.compileWith (regular_load l).spares ⟨⟨[], .nil, .nil l s⟩, nofun⟩
  rcases hcompile : l.compileWith l.load n s with ⟨e | m, t⟩
  · exact ⟨herror e t hcompile, nofun⟩
  · obtain ⟨⟨⟨all, htrace, hbooks⟩, hserved⟩, htargets⟩ := hok m t hcompile
    refine ⟨⟨all, htrace, hbooks⟩, fun m' t' hend u hu => ?_⟩
    cases hend
    rw [← htargets] at hu
    obtain ⟨call, hmem, rfl⟩ := List.mem_map.mp hu
    obtain ⟨k, hk⟩ := hserved call hmem
    exact ⟨k, hbooks.served call (htrace.subset hmem) k hk⟩

/-- A compilation that succeeds has wired all imports. -/
theorem compile_wired {resolve : Resolver State ModuleId String} {cells : List Descriptor}
    {a : Assembly State ModuleId Slot} (h : Assembly.compile kit resolve cells none s = (.ok (), a)) :
    a.pending = [] ∧ List.Forall₂ Group.Fits (importCells cells) a.groups := by
  have hsplit := compile_split kit resolve cells none s
  have hframe := (addValues_frame kit (valueCells cells) (start kit none s)).1
  rcases hvalues : (start kit none s).addValues kit (valueCells cells) with ⟨e | ⟨⟨⟩⟩, b⟩
  · rw [hvalues] at hsplit
    obtain ⟨pending, herror⟩ := hsplit
    rw [h] at herror
    cases herror
  · rw [hvalues] at hsplit hframe
    have hwire : b.wireAll kit resolve (importCells cells) = (.ok (), a) := hsplit.symm.trans h
    have hpending := pending_of_wireAll_ok hwire
    have hwired := wireAll_wired kit resolve (importCells cells) b
    rw [hwire] at hwired
    generalize b.wirings kit resolve (importCells cells) = done at hwired
    have hgroups : a.groups = done.map Prod.snd := by
      rw [hwired.groups, show b.groups = [] from hframe, List.nil_append]
    have hqueue : importCells cells = done.map Prod.fst := by
      rw [hwired.queue, hpending, List.append_nil]
    refine ⟨hpending, ?_⟩
    rw [hgroups, hqueue, List.forall₂_map_left_iff, List.forall₂_map_right_iff, List.forall₂_same]
    exact hwired.fits

theorem finished_of_compileWith {m : ModuleId} (hnotebook : l.notebook url = .ok n)
    (hcompile : l.compileWith l.load n (s.opened url) = (.ok m, t)) {loaded : List (String × ModuleId)}
    (himports : ∀ v ∈ l.targets n, ∃ k, loaded.lookup v = some k) :
    ∃ a, Finished l loaded (url, s) m n a := by
  simp only [compileWith, visit] at hcompile
  rcases hadd : (start kit none (s.opened url)).addAll kit n.cells with ⟨e | ⟨⟨⟩⟩, b⟩
  · rw [hadd] at hcompile
    cases hcompile
  · rw [hadd] at hcompile
    rcases hfinal : b.finalize kit (l.resolver l.load) with ⟨e | ⟨⟨⟩⟩, a⟩
    · simp only [hfinal] at hcompile
      cases hcompile
    · simp only [hfinal] at hcompile
      cases hcompile
      have hall : Assembly.compile kit (l.resolver l.load) n.cells none (s.opened url) = (.ok (), a) := by
        rw [Assembly.compile, hadd]
        exact hfinal
      exact ⟨a, hnotebook, hall, rfl, (compile_wired hall).1, (compile_wired hall).2, himports⟩

/-- A call that answers with an error adds nothing. -/
theorem books_of_error {e : Error} (hload : l.load url s = (.error e, s')) (hloading : s'.loading = t.loading)
    (hloaded : s'.loaded = t.loaded) : Books l t [(url, s)] s' := by
  have hentry := entry?_of_error hload
  refine .single hloading (by rw [hentry]; exact hloaded) (fun m hm => ?_) (fun u m hsome => ?_)
  · rw [hload] at hm
    cases hm
  · rw [hentry] at hsome
    cases hsome

/-- Every call has books. -/
theorem accounted_load (l : Library) (url : String) (s : State) :
    l.Accounted s [(url, s)] (l.load url s).2 := by
  refine load_induction (l := l) (motive := fun url s => l.Accounted s [(url, s)] (l.load url s).2) ?_ url s
  intro url s ih
  have hround := round_load l url s
  generalize hload : l.load url s = out at hround
  -- in the last two cases the calls further down are those of the compilation
  have hbelow : url ∉ s.loading → ∀ n, l.notebook url = .ok n →
      l.Accounted (s.opened url) (l.calls l.load n (s.opened url)) (l.compileWith l.load n (s.opened url)).2 ∧
      ∀ m t, l.compileWith l.load n (s.opened url) = (.ok m, t) →
        ∀ u ∈ l.targets n, ∃ k, t.loaded.lookup u = some k := fun hfree n hnotebook =>
    accounted_compileWith fun u hu t ht => ih hfree n hnotebook u hu t ht
  cases hround with
  | @reused m hloaded =>
      refine ⟨_, .single (by simp [direct, hloaded]) .nil,
        .single rfl ?_ (fun k hk => ?_) (fun u k hsome => ?_)⟩
      · simp [entry?_of_ok hload, hloaded]
      · rw [hload] at hk
        cases hk
        exact hloaded
      · simp [entry?_of_ok hload, hloaded] at hsome
  | cycle hnew hloading => exact ⟨_, .single (by simp [direct, hloading]) .nil, books_of_error hload rfl rfl⟩
  | unread hnew hfree hnotebook =>
      exact ⟨_, .single (by simp [direct, hnotebook]) .nil, books_of_error hload rfl rfl⟩
  | @failed n e t hnew hfree hnotebook hcompile =>
      obtain ⟨⟨all, htrace, hbooks⟩, -⟩ := hbelow hfree n hnotebook
      rw [hcompile] at hbooks
      have hdirect : l.direct (url, s) = l.calls l.load n (s.opened url) := by
        simp [direct, hnew, hfree, hnotebook]
      exact ⟨_, .single hdirect htrace, hbooks.closed.trans (books_of_error hload rfl rfl)⟩
  | @compiled n m t hnew hfree hnotebook hcompile =>
      obtain ⟨⟨all, htrace, hbooks⟩, himports⟩ := hbelow hfree n hnotebook
      rw [hcompile] at hbooks
      have hdirect : l.direct (url, s) = l.calls l.load n (s.opened url) := by
        simp [direct, hnew, hfree, hnotebook]
      have hentry : l.entry? (url, s) = some (url, m) := by
        simp [entry?_of_ok hload, hnew]
      have hloaded : t.loaded.lookup url = none := by
        rw [hbooks.lookup_eq fun hmem => (hbooks.fresh url hmem).2 List.mem_cons_self]
        exact hnew
      refine ⟨_, .single hdirect htrace, hbooks.closed.trans (.single rfl ?_ (fun k hk => ?_) ?_)⟩
      · rw [hentry]
        rfl
      · rw [hload] at hk
        cases hk
        simp
      · intro u k hsome
        rw [hentry] at hsome
        cases hsome
        refine ⟨⟨hloaded, ?_⟩, n, finished_of_compileWith hnotebook hcompile fun v hv => ?_⟩
        · rw [hbooks.closed.loading]
          exact hfree
        · obtain ⟨k, hk⟩ := himports m t hcompile v hv
          have hother : v ≠ url := by
            rintro rfl
            rw [hloaded] at hk
            cases hk
          exact ⟨k, by simp [List.lookup_cons, beq_eq_false_iff_ne.mpr hother, hk]⟩

/-! ## Whole runs -/

/-- What a library may be asked for: the module at an address, or the module of a notebook. -/
inductive Demand where
  | address (url : String)
  | notebook (n : Notebook)

/-- The answer to a demand. -/
def Demand.answer (l : Library) : Demand → State → Except Error ModuleId × State
  | .address url, s => l.load url s
  | .notebook n, s => l.compile n s

/-- The calls of the loader that a demand makes itself. -/
def Demand.calls (l : Library) : Demand → State → List (String × State)
  | .address url, s => [(url, s)]
  | .notebook n, s => l.calls l.load n s

/-- The calls that demands make one after the other, and the state after them. -/
def serve (l : Library) : List Demand → State → List (String × State) × State
  | [], s => ([], s)
  | demand :: demands, s =>
    let rest := serve l demands (demand.answer l s).2
    (demand.calls l s ++ rest.1, rest.2)

theorem accounted_answer (l : Library) (demand : Demand) (s : State) :
    l.Accounted s (demand.calls l s) (demand.answer l s).2 := by
  cases demand with
  | address url => exact accounted_load l url s
  | notebook n =>
      rw [Demand.answer, compile_eq]
      exact (accounted_compileWith fun u _ t _ => accounted_load l u t).1

/-- Over every run, from whatever state and whether or not its demands and the calls that they make
succeed, the calls of the loader come to an end, and the books balance: afterwards the same addresses are
being loaded as before, and to those that are loaded just the addresses are added whose notebooks were read
and compiled in between, with all their imports wired. None of them was loaded before or is compiled twice,
and all calls for one address that succeed are answered with the same module, which stays loaded. -/
theorem books_balance (l : Library) (demands : List Demand) (s : State) :
    ∃ all, Trace l (l.serve demands s).1 all ∧ Books l s all (l.serve demands s).2 := by
  induction demands generalizing s with
  | nil => exact ⟨[], .nil, .nil l s⟩
  | cons demand demands ih => exact (accounted_answer l demand s).trans (ih (demand.answer l s).2)

end Library

end CellGraph
