import CellGraph.Command.Run
import CellGraph.Proofs.Library.Bookkeeping

/-!
# The table of a notebook

All modules of a run share one graph, in which the cells of other notebooks and of derived modules get their
places between those of the notebook at hand. The table of its module is nevertheless the table of the
notebook, and says nothing about the library. This rests on the graph staying tidy over a whole run, so that
what is compiled before, in between or afterwards touches no table that is there (`appends_serve`).
-/

namespace CellGraph

open CellGraph.Graph

namespace Library

/-- A table has a row for each value cell, for each specifier, and for each import. -/
theorem length_table (n : Notebook) :
    n.table.length = (valueCells n.cells).length +
      ((importCells n.cells).flatMap fun cell => cell.specifiers).length + (importCells n.cells).length := by
  have himports : ∀ cells : List ImportCell, (cells.flatMap ImportCell.rows).length =
      (cells.flatMap fun cell => cell.specifiers).length + cells.length := by
    intro cells
    induction cells with
    | nil => rfl
    | cons cell cells ih =>
        have hrows : cell.rows.length = cell.specifiers.length + 1 := by simp [ImportCell.rows]
        rw [List.flatMap_cons, List.flatMap_cons, List.length_append, List.length_append, List.length_cons,
          hrows, ih]
        omega
  rw [Notebook.table, List.length_append, List.length_map, himports, Nat.add_assoc]

variable [Text.IdentifierTable] {l : Library} {n : Notebook} {s : State}

/-- Answering a demand touches the table of no module that is there. -/
theorem appends_answer (l : Library) (demand : Demand) (hs : s.graph.Tidy) (m : ModuleId) :
    Appends m [] s.graph (demand.answer l s).2.graph := by
  cases demand with
  | address url => exact (regular_load l).spares url s hs m
  | notebook n =>
      rw [Demand.answer, compile_eq]
      exact (compileWith_appends l (regular_load l).spares n hs).1 m

/-- Nor does a whole run. -/
theorem appends_serve (l : Library) (demands : List Demand) (hs : s.graph.Tidy) (m : ModuleId) :
    Appends m [] s.graph (l.serve demands s).2.graph := by
  induction demands generalizing s with
  | nil => exact hs.appends_refl m
  | cons demand demands ih =>
      have hfirst := appends_answer l demand hs m
      exact hfirst.trans (ih hfirst.tidy)

/-- A notebook that is compiled in a tidy graph has its table, and keeps it whatever comes afterwards. -/
theorem rows_of_compile {m : ModuleId} {s' : State} (hs : s.graph.Tidy)
    (hcompile : l.compile n s = (.ok m, s')) (after : List Demand) :
    (l.serve after s').2.graph.rows m = n.table := by
  rw [compile_eq] at hcompile
  obtain ⟨happends, htable⟩ := compileWith_appends l (regular_load l).spares n hs
  obtain ⟨hmodule, hrows⟩ := htable m s' hcompile
  have htidy := (happends m).tidy
  rw [hcompile] at htidy
  have hafter := (appends_serve l after htidy m).rows hmodule
  rw [hafter, if_pos rfl, List.append_nil, hrows]

end Library

namespace Command

section

variable [Text.IdentifierTable] {settings : Settings} {files : Files} {path : String}
  {directory : Option String} {n : Notebook}

/-- Where the table of a notebook is printed, it is the table of the notebook. -/
theorem graph_eq_of_code (hread : readNotebook files path = .ok n)
    (hcode : (graph settings files path directory).code = 0) :
    graph settings files path directory =
      .printed (lines [(Json.array (n.table.map rowDocument)).pretty]) := by
  unfold graph at hcode ⊢
  rw [hread] at hcode ⊢
  simp only at hcode ⊢
  split at hcode
  · cases hcode
  · next m s hcompile =>
      have hrows : s.graph.rows m = n.table :=
        Library.rows_of_compile (tidy_empty () settings.maxPasses) hcompile []
      rw [hrows]

/-- What is printed about a notebook depends on nothing else. Over every run of every library, the module that
the notebook is compiled to has the table of the notebook, and keeps it; so two libraries give the same table,
with a row for each value cell, for each specifier and for each import, whatever their names. In the same way,
all commands that print the table of one notebook print the same, whatever the settings, the files and the
directory of the library. -/
theorem table_depends_on_notebook_only (n : Notebook) :
    (∀ (l : Library) (maxPasses : Nat) (before after : List Library.Demand) (m : ModuleId) (s : Library.State),
      l.compile n (l.serve before { graph := .empty () maxPasses }).2 = (.ok m, s) →
        (l.serve after s).2.graph.rows m = n.table) ∧
    n.table.length = (valueCells n.cells).length +
      ((importCells n.cells).flatMap fun cell => cell.specifiers).length + (importCells n.cells).length ∧
    ∀ settings files path directory, readNotebook files path = .ok n →
      (graph settings files path directory).code = 0 →
        graph settings files path directory =
          .printed (lines [(Json.array (n.table.map rowDocument)).pretty]) := by
  refine ⟨fun l maxPasses before after m s hcompile => ?_, Library.length_table n,
    fun settings files path directory hread hcode => graph_eq_of_code hread hcode⟩
  have htidy := (Library.appends_serve l before
    (s := { graph := .empty () maxPasses }) (tidy_empty () maxPasses) m).tidy
  exact Library.rows_of_compile htidy hcompile after

end

/-- A notebook with two cells of one name, and an import that injects one of them. -/
def doubled : String :=
  "[\x7b\x7d,[[\"cell\",\"x\",[],\"function()\x7b\x7d\"],[\"cell\",\"x\",[],\"function()\x7b\x7d\"]," ++
    "[\"import\",\"/y.js\",[[\"y\",\"x\"]],[[\"x\",\"z\"]]]]]"

/-- Next to an empty notebook, and next to one that has a cell and imports from a third, the same four rows are
printed. -/
theorem table_of_doubled :
    let settings : Settings := { host := { origin := "", version := "" } }
    let lonely := Files.ofList [("n.json", doubled), ("y.json", "\x7b\x7d")]
    let linked := Files.ofList
      [("n.json", doubled), ("l/x.json", "\x7b\x7d"), ("l/y.json", "[\x7b\x7d,[[\"import\",\"/x.js\"]]]")]
    ∃ n, readNotebook lonely "n.json" = .ok n ∧ readNotebook linked "n.json" = .ok n ∧ n.table.length = 4 ∧
      (graph settings lonely "n.json" none).code = 0 ∧
      graph settings lonely "n.json" none = graph settings linked "n.json" (some "l") := by
  intro settings lonely linked
  obtain ⟨hparse, hlonely, hlinked, hcode, hcode'⟩ :
      (Notebook.parse? doubled).map (fun n => n.table.length) = some 4 ∧
      lonely.read "n.json" = .ok doubled ∧ linked.read "n.json" = .ok doubled ∧
      (graph settings lonely "n.json" none).code = 0 ∧
      (graph settings linked "n.json" (some "l")).code = 0 := by
    decide +kernel
  obtain ⟨n, hn, hlength⟩ := Option.map_eq_some_iff.mp hparse
  have hread : readNotebook lonely "n.json" = .ok n := by simp only [readNotebook, hlonely, hn]
  have hread' : readNotebook linked "n.json" = .ok n := by simp only [readNotebook, hlinked, hn]
  have hprinted := (table_depends_on_notebook_only n).2.2
  refine ⟨n, hread, hread', hlength, hcode, ?_⟩
  rw [hprinted settings lonely "n.json" none hread hcode,
    hprinted settings linked "n.json" (some "l") hread' hcode']

end Command

end CellGraph
