import CellGraph.Assembly
import CellGraph.Proofs.Extraction

/-!
# Parse once, compile later

A parsed cell stands for up to three cells of a notebook. These are told to a listener, which may refuse
one: an assembly registers them, and the listener that writes a notebook refuses none. All that is told
comes in turn and ends with the first refusal (`inTurn`). So what parsed cells tell is what the list of
cells that they stand for tells (`inTurn_report`), to every listener alike, and a notebook can be written
first and replayed later.
-/

namespace CellGraph

open Ast
open Extraction (descriptors desugar extract importCell Declaration bind_eq_ok bind_eq_error)

variable {α L S M V D O : Type}

/-! ## Steps in turn -/

/-- Takes items in turn, up to the first that is refused. -/
def inTurn (step : α → L → Except Error Unit × L) : List α → L → Except Error Unit × L
  | [], l => (.ok (), l)
  | item :: items, l =>
    match step item l with
    | (.error e, next) => (.error e, next)
    | (.ok (), next) => inTurn step items next

/-- Goes on with what is left, unless there was a refusal. -/
def andThen (first : Except Error Unit × L) (next : L → Except Error Unit × L) :
    Except Error Unit × L :=
  match first with
  | (.error e, l) => (.error e, l)
  | (.ok (), l) => next l

theorem inTurn_cons (step : α → L → Except Error Unit × L) (item : α) (items : List α) (l : L) :
    inTurn step (item :: items) l = andThen (step item l) (inTurn step items) := by
  rw [inTurn, andThen.eq_def]

theorem andThen_assoc (first : Except Error Unit × L) (second third : L → Except Error Unit × L) :
    andThen (andThen first second) third = andThen first fun l => andThen (second l) third := by
  rcases first with ⟨_ | _, _⟩ <;> rfl

theorem andThen_congr (first : Except Error Unit × L) {next next' : L → Except Error Unit × L}
    (h : ∀ l, next l = next' l) : andThen first next = andThen first next' :=
  congrArg (andThen first) (funext h)

theorem inTurn_singleton (step : α → L → Except Error Unit × L) (item : α) (l : L) :
    inTurn step [item] l = step item l := by
  rw [inTurn_cons]
  rcases step item l with ⟨_ | _, _⟩ <;> rfl

theorem inTurn_append (step : α → L → Except Error Unit × L) (xs ys : List α) (l : L) :
    inTurn step (xs ++ ys) l = andThen (inTurn step xs l) (inTurn step ys) := by
  induction xs generalizing l with
  | nil => rfl
  | cons x xs ih =>
      rw [List.cons_append, inTurn_cons, inTurn_cons, andThen_assoc]
      exact andThen_congr _ ih

/-- A refusal is that of one item, once all items before it have been taken. -/
theorem exists_of_inTurn_error {step : α → L → Except Error Unit × L} {items : List α} {l last : L}
    {e : Error} (h : inTurn step items l = (.error e, last)) :
    ∃ before item after mid, items = before ++ item :: after ∧
      inTurn step before l = (.ok (), mid) ∧ step item mid = (.error e, last) := by
  induction items generalizing l with
  | nil => cases h
  | cons item items ih =>
      rw [inTurn_cons] at h
      rcases hstep : step item l with ⟨refusal | ⟨⟨⟩⟩, next⟩
      · rw [hstep] at h
        exact ⟨[], item, items, l, rfl, rfl, hstep.trans h⟩
      · rw [hstep] at h
        obtain ⟨before, refused, after, mid, rfl, hbefore, hrefused⟩ := ih h
        refine ⟨item :: before, refused, after, mid, rfl, ?_, hrefused⟩
        rw [inTurn_cons, hstep]
        exact hbefore

/-! ## Listeners -/

/-- What is told of the cells of a notebook; it may refuse one. -/
abbrev Listener (L : Type) := Descriptor → L → Except Error Unit × L

namespace Listener

/-- Tells what a parsed cell stands for: an import, or each of the value cells that it declares. -/
def report (on : Listener L) (p : ParsedCell) (l : L) : Except Error Unit × L :=
  match p.body with
  | .error e => (.error e, l)
  | .ok body =>
    if body.kind = .importDeclaration then
      match importCell p with
      | .error e => (.error e, l)
      | .ok cell => on (.imports cell) l
    else
      match Declaration.of p with
      | .error e => (.error e, l)
      | .ok declaration =>
        match extract p with
        | .error e => (.error e, l)
        | .ok extracted => inTurn (fun cell => on (.value cell)) (desugar declaration extracted) l

/-- Writes a notebook. -/
def record : Listener Notebook := fun cell n =>
  (.ok (), { n with cells := n.cells ++ [cell] })

theorem inTurn_value (on : Listener L) (cells : List ValueCell) (l : L) :
    inTurn (fun cell => on (.value cell)) cells l = inTurn on (cells.map .value) l := by
  induction cells generalizing l with
  | nil => rfl
  | cons cell cells ih =>
      rw [List.map_cons, inTurn_cons, inTurn_cons]
      exact andThen_congr _ ih

/-- Nothing is told of a cell that cannot be read. -/
theorem report_of_error (on : Listener L) {p : ParsedCell} {e : Error} (h : descriptors p = .error e)
    (l : L) : on.report p l = (.error e, l) := by
  rw [report]
  rcases bind_eq_error h with hbody | ⟨body, hbody, hrest⟩
  · rw [hbody]
  rw [hbody]
  dsimp only
  split_ifs at hrest ⊢ with hkind
  · rcases bind_eq_error hrest with hcell | ⟨cell, hcell, hcells⟩
    · rw [hcell]
    · cases hcells
  · rcases bind_eq_error hrest with hdeclaration | ⟨declaration, hdeclaration, hrest⟩
    · rw [hdeclaration]
    rcases bind_eq_error hrest with hextract | ⟨extracted, hextract, hcells⟩
    · rw [hdeclaration, hextract]
    · cases hcells

/-- What a parsed cell tells is what the cells that it stands for tell in turn. -/
theorem report_of_ok (on : Listener L) {p : ParsedCell} {cells : List Descriptor}
    (h : descriptors p = .ok cells) (l : L) : on.report p l = inTurn on cells l := by
  rw [report]
  obtain ⟨body, hbody, hrest⟩ := bind_eq_ok h
  rw [hbody]
  dsimp only
  split_ifs at hrest ⊢ with hkind
  · obtain ⟨cell, hcell, hcells⟩ := bind_eq_ok hrest
    obtain rfl := Except.ok.inj hcells
    rw [hcell, inTurn_singleton]
  · obtain ⟨declaration, hdeclaration, hrest⟩ := bind_eq_ok hrest
    obtain ⟨extracted, hextract, hcells⟩ := bind_eq_ok hrest
    obtain rfl := Except.ok.inj hcells
    rw [hdeclaration, hextract]
    exact inTurn_value on _ l

end Listener

/-! ## Batches -/

/-- Each parsed cell can be read and stands for the cells at its place. -/
def Reads (cells : List ParsedCell) (parts : List (List Descriptor)) : Prop :=
  List.Forall₂ (fun p part => descriptors p = .ok part) cells parts

theorem Reads.split {earlier later : List ParsedCell} {p : ParsedCell} {parts : List (List Descriptor)}
    (h : Reads (earlier ++ p :: later) parts) : ∃ told part untold, parts = told ++ part :: untold ∧
      Reads earlier told ∧ descriptors p = .ok part ∧ Reads later untold := by
  induction earlier generalizing parts with
  | nil =>
      rcases h with _ | ⟨hpart, huntold⟩
      exact ⟨[], _, _, rfl, .nil, hpart, huntold⟩
  | cons q earlier ih =>
      rcases h with _ | ⟨hq, hrest⟩
      obtain ⟨told, part, untold, rfl, htold, hpart, huntold⟩ := ih hrest
      exact ⟨_ :: told, part, untold, rfl, .cons hq htold, hpart, huntold⟩

theorem batch_cons (p : ParsedCell) (cells : List ParsedCell) :
    Extraction.batch (p :: cells) =
      descriptors p >>= fun part => Extraction.batch cells >>= fun rest => .ok (part ++ rest) := by
  simp only [Extraction.batch, List.mapM_cons, bind_assoc, pure_bind, List.flatten_cons]
  rfl

/-- A batch is what its cells stand for, one after the other. -/
theorem batch_eq_ok_iff {cells : List ParsedCell} {ds : List Descriptor} :
    Extraction.batch cells = .ok ds ↔ ∃ parts, Reads cells parts ∧ ds = parts.flatten := by
  induction cells generalizing ds with
  | nil =>
      constructor
      · intro h
        exact ⟨[], .nil, (Except.ok.inj h).symm⟩
      · rintro ⟨_, ⟨⟩, rfl⟩
        rfl
  | cons p cells ih =>
      rw [batch_cons]
      constructor
      · intro h
        obtain ⟨part, hpart, hrest⟩ := bind_eq_ok h
        obtain ⟨rest, hcells, hds⟩ := bind_eq_ok hrest
        obtain ⟨parts, hparts, rfl⟩ := ih.mp hcells
        exact ⟨part :: parts, .cons hpart hparts, (Except.ok.inj hds).symm⟩
      · rintro ⟨_, hreads, rfl⟩
        rcases hreads with _ | ⟨hpart, hparts⟩
        rw [hpart, ih.mpr ⟨_, hparts, rfl⟩]
        rfl

/-- A batch fails with the error of its first cell that cannot be read. -/
theorem batch_eq_error_iff {cells : List ParsedCell} {e : Error} :
    Extraction.batch cells = .error e ↔ ∃ before p after parts, cells = before ++ p :: after ∧
      Reads before parts ∧ descriptors p = .error e := by
  induction cells with
  | nil =>
      constructor
      · rintro ⟨⟩
      · rintro ⟨before, p, after, parts, h, -⟩
        simp at h
  | cons p cells ih =>
      rw [batch_cons]
      constructor
      · intro h
        rcases bind_eq_error h with hp | ⟨part, hpart, hrest⟩
        · exact ⟨[], p, cells, [], rfl, .nil, hp⟩
        rcases bind_eq_error hrest with hcells | ⟨rest, hcells, hds⟩
        · obtain ⟨before, q, after, parts, rfl, hbefore, hq⟩ := ih.mp hcells
          exact ⟨p :: before, q, after, part :: parts, rfl, .cons hpart hbefore, hq⟩
        · cases hds
      · rintro ⟨before, q, after, parts, hcells, hbefore, hq⟩
        rcases hbefore with _ | ⟨hpart, hparts⟩
        · obtain ⟨rfl, rfl⟩ := List.cons.inj hcells
          rw [hq]
          rfl
        · obtain ⟨rfl, rfl⟩ := List.cons.inj hcells
          rw [hpart, ih.mpr ⟨_, q, after, _, rfl, hparts, hq⟩]
          rfl

/-! ## What a batch tells -/

/-- Cells that can all be read tell in turn what their batch tells. -/
theorem inTurn_report (on : Listener L) {cells : List ParsedCell} {parts : List (List Descriptor)}
    (h : Reads cells parts) (l : L) : inTurn on.report cells l = inTurn on parts.flatten l := by
  induction h generalizing l with
  | nil => rfl
  | cons hpart _ ih =>
      rw [inTurn_cons, List.flatten_cons, inTurn_append, on.report_of_ok hpart]
      exact andThen_congr _ ih

/-- A cell that cannot be read ends the telling, and tells nothing itself. -/
theorem inTurn_report_of_error (on : Listener L) {before after : List ParsedCell} {p : ParsedCell}
    {parts : List (List Descriptor)} {e : Error} (hbefore : Reads before parts)
    (hp : descriptors p = .error e) (l : L) :
    inTurn on.report (before ++ p :: after) l =
      andThen (inTurn on parts.flatten l) fun last => (.error e, last) := by
  rw [inTurn_append, inTurn_report on hbefore]
  refine andThen_congr _ fun last => ?_
  rw [inTurn_cons, on.report_of_error hp]
  rfl

/-- The first refusal is that of one of the cells that one parsed cell stands for, once all that comes
before has been told. -/
theorem exists_of_report_refused (on : Listener L) {cells : List ParsedCell}
    {parts : List (List Descriptor)} {e : Error} {l last : L} (h : Reads cells parts)
    (hrefused : inTurn on.report cells l = (.error e, last)) :
    ∃ earlier p later told front cell back untold mid, cells = earlier ++ p :: later ∧
      Reads earlier told ∧ descriptors p = .ok (front ++ cell :: back) ∧ Reads later untold ∧
      parts = told ++ (front ++ cell :: back) :: untold ∧
      inTurn on (told.flatten ++ front) l = (.ok (), mid) ∧ on cell mid = (.error e, last) := by
  obtain ⟨earlier, p, later, next, rfl, hearlier, hp⟩ := exists_of_inTurn_error hrefused
  obtain ⟨told, part, untold, rfl, htold, hpart, huntold⟩ := h.split
  rw [on.report_of_ok hpart] at hp
  obtain ⟨front, cell, back, mid, rfl, hfront, hcell⟩ := exists_of_inTurn_error hp
  rw [inTurn_report on htold] at hearlier
  refine ⟨earlier, p, later, told, front, cell, back, untold, mid, rfl, htold, hpart, huntold, rfl, ?_,
    hcell⟩
  rw [inTurn_append, hearlier]
  exact hfront

theorem inTurn_record (cells : List Descriptor) (n : Notebook) :
    inTurn Listener.record cells n = (.ok (), { n with cells := n.cells ++ cells }) := by
  induction cells generalizing n with
  | nil =>
      rw [List.append_nil]
      rfl
  | cons cell cells ih =>
      rw [inTurn_cons]
      exact (ih _).trans (by rw [List.append_assoc]; rfl)

namespace Assembly

/-! ## Assemblies as listeners -/

theorem addAll_eq_inTurn (kit : Kit S M V D O) (cells : List Descriptor) (a : Assembly S M V) :
    a.addAll kit cells = inTurn (add kit) cells a := by
  induction cells generalizing a with
  | nil => rfl
  | cons cell cells ih =>
      rw [inTurn_cons, addAll]
      rcases a.add kit cell with ⟨_ | _, b⟩
      · rfl
      · exact ih b

theorem addParsed_eq_report (kit : Kit S M V D O) : addParsed kit = Listener.report (add kit) := by
  funext p a
  rcases h : descriptors p with e | cells
  · rw [addParsed, h, Listener.report_of_error _ h]
  · rw [addParsed, h, Listener.report_of_ok _ h]
    exact addAll_eq_inTurn kit cells a

theorem compile_eq (kit : Kit S M V D O) (resolve : Resolver S M O) (cells : List Descriptor)
    (home : Option M) (store : S) :
    compile kit resolve cells home store =
      andThen ((start kit home store).addAll kit cells) (finalize kit resolve) := by
  rw [compile]
  rcases (start kit home store).addAll kit cells with ⟨_ | _, _⟩ <;> rfl

/-- Cells can be parsed once and compiled later. An assembly takes in a parsed cell as any listener is told
of it. A batch of parsed cells is what each of them stands for, one after the other; or it fails with the
error of the first that cannot be read, and the notebook written so far holds nothing of that cell. If the
batch is read, then to register each parsed cell, to replay the notebook that they write, and to compile
the batch all end alike, after the imports are wired: with the same result in the same assembly, on the
same platform. What is refused is the same cell of the batch each time, once all cells before it are
registered. -/
theorem parsed_cells_compile_alike (kit : Kit S M V D O) (resolve : Resolver S M O) (home : Option M)
    (store : S) (metadata : List (String × Json)) (cells : List ParsedCell) :
    addParsed kit = Listener.report (add kit) ∧
    (∀ ds, Extraction.batch cells = .ok ds ↔ ∃ parts, Reads cells parts ∧ ds = parts.flatten) ∧
    (∀ e, Extraction.batch cells = .error e ↔
      ∃ before p after parts, cells = before ++ p :: after ∧ Reads before parts ∧
        descriptors p = .error e ∧
        inTurn (Listener.report .record) cells { metadata } =
          (.error e, { metadata, cells := parts.flatten })) ∧
    ∀ ds, Extraction.batch cells = .ok ds →
      ∃ n, inTurn (Listener.report .record) cells { metadata } = (.ok (), n) ∧
      n = { metadata, cells := ds } ∧
      andThen (inTurn (addParsed kit) cells (start kit home store)) (finalize kit resolve) =
        compile kit resolve ds home store ∧
      andThen ((start kit home store).visit kit n) (finalize kit resolve) =
        compile kit resolve ds home store ∧
      ∀ e b, inTurn (addParsed kit) cells (start kit home store) = (.error e, b) →
        ∃ earlier p later before front cell back after mid, cells = earlier ++ p :: later ∧
          Extraction.batch earlier = .ok before ∧ descriptors p = .ok (front ++ cell :: back) ∧
          Extraction.batch later = .ok after ∧ ds = before ++ (front ++ cell :: back) ++ after ∧
          (start kit home store).addAll kit (before ++ front) = (.ok (), mid) ∧
          mid.add kit cell = (.error e, b) := by
  refine ⟨addParsed_eq_report kit, fun ds => batch_eq_ok_iff, fun e => ⟨fun h => ?_, ?_⟩, fun ds hds => ?_⟩
  · obtain ⟨before, p, after, parts, rfl, hbefore, hp⟩ := batch_eq_error_iff.mp h
    refine ⟨before, p, after, parts, rfl, hbefore, hp, ?_⟩
    rw [inTurn_report_of_error _ hbefore hp, inTurn_record]
    rfl
  · rintro ⟨before, p, after, parts, hcells, hbefore, hp, -⟩
    exact batch_eq_error_iff.mpr ⟨before, p, after, parts, hcells, hbefore, hp⟩
  · obtain ⟨parts, hparts, rfl⟩ := batch_eq_ok_iff.mp hds
    have hdirect : inTurn (addParsed kit) cells (start kit home store) =
        (start kit home store).addAll kit parts.flatten := by
      rw [addParsed_eq_report, inTurn_report _ hparts, addAll_eq_inTurn]
    refine ⟨_, (inTurn_report _ hparts _).trans (inTurn_record _ _), rfl, ?_, ?_, ?_⟩
    · rw [hdirect, compile_eq]
    · rw [compile_eq]
      rfl
    · intro e b hrefused
      rw [addParsed_eq_report] at hrefused
      obtain ⟨earlier, p, later, told, front, cell, back, untold, mid, hcells, htold, hp, huntold, rfl,
        hbefore, hcell⟩ := exists_of_report_refused _ hparts hrefused
      refine ⟨earlier, p, later, told.flatten, front, cell, back, untold.flatten, mid, hcells,
        batch_eq_ok_iff.mpr ⟨told, htold, rfl⟩, hp, batch_eq_ok_iff.mpr ⟨untold, huntold, rfl⟩, ?_, ?_,
        hcell⟩
      · simp
      · rw [addAll_eq_inTurn]
        exact hbefore

/-- A view, an import and a mutable, on a graph where the mutable itself cannot be compiled: the fifth
cell of the batch is refused, and the view, its value and the initial value of the mutable are
registered. -/
theorem parsed_cells_compile_alike_mixed :
    let node (type : String) (start stop : Nat) (others : List (String × Json)) : Json :=
      .object (("type", .string type) :: ("start", .ofNat start) :: ("end", .ofNat stop) :: others)
    let named (name : String) : Json := node "Identifier" 0 0 [("name", .string name)]
    let written (input : String) (id : Option Json) (body : Json) : ParsedCell :=
      { input, cell := { id, body, references := [], isAsync := false, isGenerator := false } }
    let view := written "viewof v = 1" (some (node "ViewExpression" 0 8 [("id", named "v")]))
      (node "Literal" 11 12 [])
    let imports := written "import \x7ba\x7d from 'p'" none (node "ImportDeclaration" 0 19
      [("specifiers", .array [.object [("type", .string "ImportSpecifier"), ("start", .ofNat 8),
        ("end", .ofNat 9), ("imported", named "a")]]),
        ("source", node "Literal" 16 19 [("value", .string "p")])])
    let counter := written "mutable n = 2" (some (node "MutableExpression" 0 9 [("id", named "n")]))
      (node "Literal" 12 13 [])
    let kit : Kit (Graph Unit) ModuleId Slot (Body Unit) String :=
      { Graph.platform with
        compile := fun cell _ g =>
          if cell.name = some "mutable n" then (.error (.functionText cell.code), g)
          else (.ok (.constant (.data (.string cell.code))), g) }
    let empty : Graph Unit := { world := { host := () } }
    let cells := [view, imports, counter]
    ∃ ds n e b, Extraction.batch cells = .ok ds ∧ ds.length = 6 ∧
      inTurn (Listener.report .record) cells {} = (.ok (), n) ∧
      inTurn (addParsed kit) cells (start kit none empty) = (.error e, b) ∧
      b.vars.length = 3 ∧ b.pending.length = 1 ∧
      andThen ((start kit none empty).visit kit n) (finalize kit .none) = (.error e, b) ∧
      compile kit .none ds none empty = (.error e, b) := by
  intro node named written view imports counter kit empty cells
  have hlength : (Extraction.batch cells).toOption.map List.length = some 6 := by decide +kernel
  have hrefused : (inTurn (addParsed kit) cells (start kit none empty)).1.isOk = false ∧
      (inTurn (addParsed kit) cells (start kit none empty)).2.vars.length = 3 ∧
      (inTurn (addParsed kit) cells (start kit none empty)).2.pending.length = 1 := by decide +kernel
  rcases hds : Extraction.batch cells with e | ds
  · rw [hds] at hlength
    cases hlength
  rw [hds] at hlength
  obtain ⟨-, -, -, hok⟩ := parsed_cells_compile_alike kit .none none empty [] cells
  obtain ⟨n, hn, -, hdirect, hreplay, -⟩ := hok ds hds
  obtain ⟨hresult, hvars, hpending⟩ := hrefused
  rcases hout : inTurn (addParsed kit) cells (start kit none empty) with ⟨e | _, b⟩
  · rw [hout] at hdirect hvars hpending
    exact ⟨ds, n, e, b, rfl, Option.some.inj hlength, hn, rfl, hvars, hpending,
      hreplay.trans hdirect.symm, hdirect.symm⟩
  · rw [hout] at hresult
    cases hresult

end Assembly

end CellGraph
