import CellGraph.Proofs.Library.Loading
import CellGraph.Text.Unicode
import Mathlib.Logic.Relation

/-!
# Import cycles

The addresses of a library are a directed graph, with an edge from each address to those that its notebook
imports from. Loading goes through it depth first: the addresses being loaded are the path to the address at
hand, and from those that are loaded no cycle can be reached any more (`Settled`). So an address that is
being loaded already closes a cycle, and one whose imports could all be loaded leads to none
(`verdict_load`).
-/

namespace CellGraph

open Relation

namespace Library

variable {l : Library} {n : Notebook} {s : State} {url : String}

/-! ## The graph of addresses -/

/-- The notebook at one address imports from the other. -/
def Imports (l : Library) (u v : String) : Prop :=
  ∃ n, l.notebook u = .ok n ∧ v ∈ l.targets n

/-- An address that a notebook imports from, directly or not. -/
def Reached (l : Library) (n : Notebook) (u : String) : Prop :=
  ∃ v ∈ l.targets n, ReflTransGen l.Imports v u

/-- An address that lies on a cycle. -/
def OnCycle (l : Library) (u : String) : Prop :=
  TransGen l.Imports u u

/-- An address whose notebook can be read, with value cells that can all be compiled. -/
def Usable [Text.IdentifierTable] (l : Library) (u : String) : Prop :=
  ∃ n, l.notebook u = .ok n ∧ ∀ cell ∈ valueCells n.cells, cell.Compiles

/-- An address from which no cycle is reached. -/
def Settled (l : Library) (u : String) : Prop :=
  ∀ v, ReflTransGen l.Imports u v → ¬ l.OnCycle v

/-- An address is settled if those are that its notebook imports from. -/
theorem settled_of_imports {u : String} (h : ∀ v, l.Imports u v → l.Settled v) : l.Settled u := by
  intro w hw hcycle
  have hpath : TransGen l.Imports u w := TransGen.trans_right hw hcycle
  obtain ⟨v, hfirst, hrest⟩ := TransGen.head'_iff.mp hpath
  exact h v hfirst w hrest hcycle

/-- What is reached from a notebook is among any addresses that contain what it imports from, and with each
what its notebook imports from. -/
theorem Reached.mem {urls : List String} (htargets : ∀ v ∈ l.targets n, v ∈ urls)
    (hclosed : ∀ u ∈ urls, ∀ v, l.Imports u v → v ∈ urls) {u : String} (h : l.Reached n u) : u ∈ urls := by
  obtain ⟨v, hv, hpath⟩ := h
  induction hpath with
  | refl => exact htargets v hv
  | tail _ hlast ih => exact hclosed _ ih _ hlast

section

variable [Text.IdentifierTable]

/-- A cell can be compiled if it has the text of a function with one parameter for each reference, and not
otherwise. -/
theorem compiles_iff {cell : ValueCell} :
    cell.Compiles ↔ (FunctionText.parse? cell.code).any fun f =>
      f.parameters.length == cell.references.length := by
  unfold ValueCell.Compiles compileCell
  cases FunctionText.parse? cell.code with
  | none =>
      refine iff_of_false ?_ nofun
      rintro ⟨body, hbody⟩
      cases hbody { host := () }
  | some f =>
      by_cases hlength : f.parameters.length = cell.references.length
      · simp only [hlength, ne_eq, not_true, if_false, Option.any_some, beq_self_eq_true, iff_true]
        cases Extraction.Helper.recognize? f with
        | none => exact ⟨_, fun _ => rfl⟩
        | some helper => exact ⟨_, fun _ => rfl⟩
      · simp only [hlength, ne_eq, not_false_eq_true, if_true, Option.any_some, beq_iff_eq, iff_false]
        rintro ⟨body, hbody⟩
        cases hbody { host := () }

instance (cell : ValueCell) : Decidable cell.Compiles :=
  decidable_of_iff _ compiles_iff.symm

/-- Value cells that can all be compiled, and imports from no other addresses than some. -/
def Within (l : Library) (urls : List String) (n : Notebook) : Prop :=
  (∀ cell ∈ valueCells n.cells, cell.Compiles) ∧ ∀ v ∈ l.targets n, v ∈ urls

instance (l : Library) (urls : List String) (n : Notebook) : Decidable (l.Within urls n) :=
  inferInstanceAs (Decidable (_ ∧ _))

/-- Whether the notebooks at some addresses can all be read and are such notebooks. -/
def covered (l : Library) (urls : List String) : Bool :=
  urls.all fun u => (l.notebook u).toOption.any fun n => l.Within urls n

/-- A test for whether all that is reached can be used. -/
theorem usable_of_covered {urls : List String} (hn : l.Within urls n) (hurls : l.covered urls) {u : String}
    (hu : l.Reached n u) : l.Usable u := by
  have hread : ∀ u ∈ urls, ∃ k, l.notebook u = .ok k ∧ l.Within urls k := by
    intro u hu
    have hany := List.all_eq_true.mp hurls u hu
    cases hnotebook : l.notebook u with
    | error e => simp [hnotebook, Except.toOption] at hany
    | ok k => exact ⟨k, rfl, by simpa [hnotebook, Except.toOption] using hany⟩
  have hmem : u ∈ urls := by
    refine hu.mem hn.2 ?_
    rintro v hv w ⟨k, hk, hw⟩
    obtain ⟨k', hk', hwithin⟩ := hread v hv
    rw [hk] at hk'
    cases hk'
    exact hwithin.2 w hw
  obtain ⟨k, hk, hwithin⟩ := hread u hmem
  exact ⟨k, hk, hwithin.1⟩

/-! ## Verdicts -/

/-- No cycle is reached from what is loaded. -/
def State.Settled (l : Library) (s : State) : Prop :=
  ∀ u m, s.loaded.lookup u = some m → l.Settled u

/-- What an outcome says of the addresses that were to be loaded: with a module, no cycle is reached from
any of them, and otherwise the error names an address on such a cycle. -/
def Verdict (l : Library) (urls : List String) : Except Error ModuleId × State → Prop
  | (.ok _, s) => s.Settled l ∧ ∀ u ∈ urls, l.Settled u
  | (.error e, _) => ∃ u ∈ urls, ∃ v, e = .resolve v "import cycle" ∧ ReflTransGen l.Imports u v ∧ l.OnCycle v

/-- The verdict on a notebook comes from those on the addresses that it imports from. -/
theorem verdict_compileWith (htidy : s.graph.Tidy) (hsettled : s.Settled l)
    (hcells : ∀ cell ∈ valueCells n.cells, cell.Compiles)
    (hload : ∀ u ∈ l.targets n, ∀ t : State, t.loading = s.loading → t.graph.Tidy → t.Settled l →
      l.Verdict [u] (l.load u t)) :
    l.Verdict (l.targets n) (l.compileWith l.load n s) := by
  have hinvariant : Invariant l l.load n s
      (fun calls t => t.loading = s.loading ∧ t.Settled l ∧ ∀ call ∈ calls, l.Settled call.1)
      (fun _ e t => l.Verdict (l.targets n) (.error e, t)) := by
    refine ⟨fun g ht => ht, ?_, ?_, ?_⟩
    · rintro calls u t m t' hu ⟨hloading, ht, hcalls⟩ htidy' hok
      have hverdict := hload u hu t hloading (htidy' htidy) ht
      have hrestored := (regular_load l).restores u t
      rw [hok] at hverdict hrestored
      refine ⟨hrestored.trans hloading, hverdict.1, fun call hcall => ?_⟩
      rcases List.mem_append.mp hcall with hbefore | hlast
      · exact hcalls call hbefore
      · rw [List.mem_singleton.mp hlast]
        exact hverdict.2 u List.mem_cons_self
    · rintro calls u t e t' hu ⟨hloading, ht, -⟩ htidy' herror
      have hverdict := hload u hu t hloading (htidy' htidy) ht
      rw [herror] at hverdict
      obtain ⟨v, hv, w, he, hpath, hcycle⟩ := hverdict
      exact ⟨u, hu, w, he, List.mem_singleton.mp hv ▸ hpath, hcycle⟩
    · intro calls t e g _ hbroken
      obtain ⟨cell, hcell, hno⟩ := hbroken htidy
      exact absurd (hcells cell hcell) hno
  obtain ⟨hok, herror⟩ := hinvariant.compileWith (regular_load l).spares ⟨rfl, hsettled, nofun⟩
  rcases hcompile : l.compileWith l.load n s with ⟨e | m, t⟩
  · exact herror e t hcompile
  · obtain ⟨⟨-, ht, hcalls⟩, htargets⟩ := hok m t hcompile
    refine ⟨ht, fun u hu => ?_⟩
    rw [← htargets] at hu
    obtain ⟨call, hcall, rfl⟩ := List.mem_map.mp hu
    exact hcalls call hcall

/-- The verdict on an address that every address being loaded leads to. -/
theorem verdict_load (husable : ∀ v, ReflTransGen l.Imports url v → l.Usable v) (htidy : s.graph.Tidy)
    (hsettled : s.Settled l) (hpath : ∀ u ∈ s.loading, TransGen l.Imports u url) :
    l.Verdict [url] (l.load url s) := by
  revert husable htidy hsettled hpath
  refine load_induction (l := l) (motive := fun url s =>
    (∀ v, ReflTransGen l.Imports url v → l.Usable v) → s.graph.Tidy → s.Settled l →
      (∀ u ∈ s.loading, TransGen l.Imports u url) → l.Verdict [url] (l.load url s)) ?_ url s
  intro url s ih husable htidy hsettled hpath
  obtain ⟨k, hnotebook, hcells⟩ := husable url .refl
  -- the verdict on the notebook at the address, where it comes to be compiled
  have hbelow : url ∉ s.loading → l.Verdict (l.targets k) (l.compileWith l.load k (s.opened url)) := by
    intro hfree
    refine verdict_compileWith htidy hsettled hcells fun u hu t hloading ht htsettled => ?_
    have hedge : l.Imports url u := ⟨k, hnotebook, hu⟩
    refine ih hfree k hnotebook u hu t hloading (fun v hv => husable v (.head hedge hv)) ht htsettled ?_
    intro w hw
    rw [hloading] at hw
    rcases List.mem_cons.mp hw with rfl | hw
    · exact .single hedge
    · exact .tail (hpath w hw) hedge
  have hround := round_load l url s
  generalize l.load url s = out at hround
  cases hround with
  | reused hloaded =>
      refine ⟨hsettled, fun u hu => ?_⟩
      rw [List.mem_singleton.mp hu]
      exact hsettled url _ hloaded
  | cycle _ hloading => exact ⟨url, List.mem_cons_self, url, rfl, .refl, hpath url hloading⟩
  | unread _ _ hno =>
      rw [hnotebook] at hno
      cases hno
  | failed _ hfree hread hcompile =>
      rw [hnotebook] at hread
      cases hread
      have hverdict := hbelow hfree
      rw [hcompile] at hverdict
      obtain ⟨u, hu, v, he, hrest, hcycle⟩ := hverdict
      exact ⟨url, List.mem_cons_self, v, he, .head ⟨k, hnotebook, hu⟩ hrest, hcycle⟩
  | compiled _ hfree hread hcompile =>
      rw [hnotebook] at hread
      cases hread
      have hverdict := hbelow hfree
      rw [hcompile] at hverdict
      obtain ⟨hloaded, htargets⟩ := hverdict
      have hurl : l.Settled url := settled_of_imports fun v hv => by
        obtain ⟨k', hread, hv⟩ := hv
        rw [hnotebook] at hread
        cases hread
        exact htargets v hv
      refine ⟨fun u m hu => ?_, fun u hu => ?_⟩
      · by_cases hsame : u = url
        · rw [hsame]
          exact hurl
        · simp only [List.lookup_cons, beq_eq_false_iff_ne.mpr hsame] at hu
          exact hloaded u m hu
      · rw [List.mem_singleton.mp hu]
        exact hurl

/-- Compiling a notebook always ends: any number of rounds of loading above the number of imports that there
are, whatever lies at the bottom of them, comes to the same. If every address that is reached can be read as
a notebook, and all value cells compile, then the only error is that of an import cycle; it names an address on
a cycle that is reached, and comes exactly if there is one. Otherwise there is a module. -/
theorem import_cycles_found_exactly (l : Library) (n : Notebook) :
    (∀ s bottom rounds, l.depth n < rounds →
      l.compileWith (l.step^[rounds] bottom) n s = l.compile n s) ∧
    ∀ maxPasses, (∀ cell ∈ valueCells n.cells, cell.Compiles) → (∀ u, l.Reached n u → l.Usable u) →
      let result := (l.compile n { graph := .empty () maxPasses }).1
      ((∃ u, result = .error (.resolve u "import cycle")) ↔ ∃ u, l.Reached n u ∧ l.OnCycle u) ∧
      (∀ e, result = .error e → ∃ u, e = .resolve u "import cycle" ∧ l.Reached n u ∧ l.OnCycle u) ∧
      ((∃ m, result = .ok m) ↔ ¬ ∃ u, l.Reached n u ∧ l.OnCycle u) := by
  refine ⟨fun s bottom rounds hrounds => ?_, fun maxPasses hcells husable => ?_⟩
  · rw [compile_eq]
    exact compileWith_iterate l n s bottom hrounds
  · rw [compile_eq]
    have hverdict : l.Verdict (l.targets n) (l.compileWith l.load n { graph := .empty () maxPasses }) := by
      refine verdict_compileWith (Graph.tidy_empty () maxPasses) nofun hcells
        fun u hu t hloading ht hsettled => ?_
      refine verdict_load (fun v hv => husable v ⟨u, hu, hv⟩) ht hsettled fun w hw => ?_
      rw [hloading] at hw
      cases hw
    generalize l.compileWith l.load n { graph := .empty () maxPasses } = out at hverdict
    rcases out with ⟨e | m, s⟩
    · obtain ⟨u, hu, v, rfl, hpath, hcycle⟩ := hverdict
      have hfound : ∃ u, l.Reached n u ∧ l.OnCycle u := ⟨v, ⟨u, hu, hpath⟩, hcycle⟩
      refine ⟨⟨fun _ => hfound, fun _ => ⟨v, rfl⟩⟩, fun e he => ?_, ⟨nofun, fun hno => absurd hfound hno⟩⟩
      cases he
      exact ⟨v, rfl, ⟨u, hu, hpath⟩, hcycle⟩
    · obtain ⟨-, hsettled⟩ := hverdict
      have hnone : ¬ ∃ u, l.Reached n u ∧ l.OnCycle u := by
        rintro ⟨u, ⟨v, hv, hpath⟩, hcycle⟩
        exact hsettled v hv u hpath hcycle
      exact ⟨⟨nofun, fun hfound => absurd hfound hnone⟩, nofun, ⟨fun _ => hnone, fun _ => ⟨m, rfl⟩⟩⟩

end

/-- A library with a notebook that imports from another one, and one that imports from itself. -/
def crossing : Library where
  files := .ofList [("x.json", "\x7b\x7d"),
    ("y.json", "\x7b\"cells\":[\x7b\"type\":\"import\",\"source\":\"/x.js\"\x7d]\x7d"),
    ("z.json", "\x7b\"cells\":[\x7b\"type\":\"import\",\"source\":\"/z.js\"\x7d]\x7d")]
  directory := ""
  host := { origin := "", version := "" }

/-- A notebook with imports from some sources after a value cell. -/
def importing (sources : List String) : Notebook where
  cells := .value { name := none, references := ["x"], code := "function (x) \x7b\x7d", constants := none } ::
    sources.map fun source => .imports { source, specifiers := [], injections := [] }

/-- Imports that meet again, and imports that are repeated, make no cycle; a notebook that imports from itself
does. -/
theorem import_cycles_found_in_crossing :
    let compiled := fun n => (crossing.compile n { graph := .empty () 64 }).1
    let meeting := importing ["/y.js", "/x.js", "/y.js"]
    let looping := importing ["/y.js", "/z.js"]
    ((∃ m, compiled meeting = .ok m) ∧ ¬ ∃ u, crossing.Reached meeting u ∧ crossing.OnCycle u) ∧
    (∃ u, compiled looping = .error (.resolve u "import cycle")) ∧
      ∃ u, crossing.Reached looping u ∧ crossing.OnCycle u := by
  intro compiled meeting looping
  let urls := ["/x.js", "/y.js", "/z.js"]
  obtain ⟨hurls, hmeeting, hlooping⟩ :
      crossing.covered urls ∧ crossing.Within urls meeting ∧ crossing.Within urls looping := by
    decide +kernel
  have hanswers : (compiled meeting).toOption.isSome ∧ (compiled looping).toOption = none := by
    decide +kernel
  obtain ⟨-, -, hmet⟩ := (import_cycles_found_exactly crossing meeting).2 64 hmeeting.1
    fun u => usable_of_covered hmeeting hurls
  obtain ⟨hcycle, -, hlooped⟩ := (import_cycles_found_exactly crossing looping).2 64 hlooping.1
    fun u => usable_of_covered hlooping hurls
  have hmodule : ∃ m, compiled meeting = .ok m := by
    cases hresult : compiled meeting with
    | error e => simp [hresult, Except.toOption] at hanswers
    | ok m => exact ⟨m, rfl⟩
  have hfound : ∃ u, crossing.Reached looping u ∧ crossing.OnCycle u := by
    by_contra hno
    obtain ⟨m, hm⟩ := hlooped.mpr hno
    simp [compiled, hm, Except.toOption] at hanswers
  exact ⟨⟨hmodule, hmet.mp hmodule⟩, hcycle.mpr hfound, hfound⟩

end Library

end CellGraph
