import CellGraph.Proofs.Assembly.Runs
import CellGraph.Proofs.Platform
import Mathlib.Data.List.Forall2
import Mathlib.Data.List.Perm.Basic

/-!
# Who owns the nodes of a module

The nodes that an assembly has made in its module are those of its value cells, the members of its
groups and their proxies, each once (`Owns`). What a function adds to the nodes is said by `Grown`;
deleting what was added brings the nodes back (`Grown.undone`), and so a failed import leaves nothing
behind, whichever of its specifiers failed. `Holds.step` is the law for one move and `holds_run` for a
run.

The module may have had nodes before; they are its `base`, and they stay.
-/

namespace CellGraph

open List (Forall₂)

variable {S M V D O : Type}

/-- Pairs need to be carried over only for the members of the second list. -/
theorem forall₂_imp_mem {α β : Type} {R R' : α → β → Prop} {as : List α} {bs : List β}
    (h : Forall₂ R as bs) (himp : ∀ a, ∀ b ∈ bs, R a b → R' a b) : Forall₂ R' as bs := by
  rw [List.forall₂_iff_zip] at h ⊢
  exact ⟨h.1, fun {a b} hpair => himp a b (List.of_mem_zip hpair).2 (h.2 hpair)⟩

/-- The variables of a group, the proxy last. -/
def Group.nodes (group : Group V) : List V :=
  group.members ++ [group.proxy]

/-! ## Nodes that come and go -/

namespace Platform.Nodes

variable {P : Platform S M V D O} {home : M} {T : P.Nodes home}

/-- From one state to another, the given nodes are new and every other node is as it was. -/
structure Grown (T : P.Nodes home) (s s' : S) (new : List V) : Prop where
  valid : T.valid s'
  nodup : new.Nodup
  fresh : ∀ v ∈ new, T.role s v = none
  others : ∀ v, v ∉ new → T.role s' v = T.role s v

/-- A node that was there has kept its role. -/
theorem Grown.stays {s s' : S} {new : List V} (h : T.Grown s s' new) {v : V} {role : Role M D}
    (hv : T.role s v = some role) : T.role s' v = some role := by
  rw [h.others, hv]
  intro hnew
  rw [h.fresh v hnew] at hv
  cases hv

/-- A step that leaves the nodes alone may come first. -/
theorem Grown.after {s₀ s s' : S} {new : List V} (h : T.Grown s s' new) (hrole : T.role s = T.role s₀) :
    T.Grown s₀ s' new where
  valid := h.valid
  nodup := h.nodup
  fresh := hrole ▸ h.fresh
  others := hrole ▸ h.others

/-- One more node may have come before. -/
theorem Grown.cons {s₀ s s' : S} {v : V} {new : List V} (hfirst : T.Grown s₀ s [v])
    (hlive : T.role s v ≠ none) (h : T.Grown s s' new) : T.Grown s₀ s' (v :: new) where
  valid := h.valid
  nodup := List.nodup_cons.mpr ⟨fun hmem => hlive (h.fresh v hmem), h.nodup⟩
  fresh w hw := by
    rcases List.mem_cons.mp hw with rfl | hmem
    · exact hfirst.fresh w (List.mem_singleton_self w)
    · rw [← hfirst.others, h.fresh w hmem]
      intro hsame
      rw [List.mem_singleton] at hsame
      subst hsame
      exact hlive (h.fresh w hmem)
  others w hw := by
    rw [List.mem_cons, not_or] at hw
    rw [h.others w hw.2, hfirst.others w (by rw [List.mem_singleton]; exact hw.1)]

/-- One more node may come afterwards. -/
theorem Grown.concat {s₀ s s' : S} {v : V} {new : List V} (h : T.Grown s₀ s new)
    (hlive : ∀ w ∈ new, T.role s w ≠ none) (hlast : T.Grown s s' [v]) : T.Grown s₀ s' (new ++ [v]) := by
  have hv : T.role s v = none := hlast.fresh v (List.mem_singleton_self v)
  have hnew : v ∉ new := fun hmem => hlive v hmem hv
  refine ⟨hlast.valid, ?_, ?_, ?_⟩
  · rw [List.nodup_append_comm, List.singleton_append, List.nodup_cons]
    exact ⟨hnew, h.nodup⟩
  · intro w hw
    rcases List.mem_append.mp hw with hold | hlast'
    · exact h.fresh w hold
    · rw [List.mem_singleton.mp hlast', ← h.others v hnew, hv]
  · intro w hw
    rw [List.mem_append, not_or] at hw
    rw [hlast.others w hw.2, h.others w hw.1]

end Platform.Nodes

namespace Assembly

variable {kit : Kit S M V D O} {home : M} {T : kit.Nodes home}

/-- Making a variable and then giving it a role. -/
theorem grown_newVariable {s s' : S} (hs : T.valid s) (observer : Option O)
    (hvalid : T.valid s')
    (hothers : ∀ w, w ≠ (kit.newVariable home observer s).1 →
      T.role s' w = T.role (kit.newVariable home observer s).2 w) :
    T.Grown s s' [(kit.newVariable home observer s).1] := by
  obtain ⟨-, hfresh, -, hnew⟩ := T.newVariable hs observer
  refine ⟨hvalid, List.nodup_singleton _, ?_, ?_⟩
  · intro v hv
    rw [List.mem_singleton.mp hv]
    exact hfresh
  · intro v hv
    rw [List.mem_singleton] at hv
    rw [hothers v hv, hnew v hv]

/-- Deleted nodes are gone, and the others are as they were. -/
theorem role_deleteAll {s : S} (hs : T.valid s) (vars : List V) :
    T.valid (deleteAll kit vars s) ∧ (∀ v ∈ vars, T.role (deleteAll kit vars s) v = none) ∧
      ∀ v, v ∉ vars → T.role (deleteAll kit vars s) v = T.role s v := by
  induction vars generalizing s with
  | nil => exact ⟨hs, by simp, fun v _ => rfl⟩
  | cons u vars ih =>
      obtain ⟨hvalid, hgone, hothers⟩ := T.delete hs u
      obtain ⟨hvalid', hgone', hothers'⟩ := ih hvalid
      refine ⟨hvalid', ?_, ?_⟩
      · intro v hv
        by_cases hmem : v ∈ vars
        · exact hgone' v hmem
        · obtain rfl : v = u := (List.mem_cons.mp hv).resolve_right hmem
          exact (hothers' v hmem).trans hgone
      · intro v hv
        rw [List.mem_cons, not_or] at hv
        exact (hothers' v hv.2).trans (hothers v hv.1)

/-- Deleting the nodes that are new brings the nodes back to what they were. -/
theorem role_undone {s s' : S} {new : List V} (h : T.Grown s s' new) :
    T.valid (deleteAll kit new s') ∧ T.role (deleteAll kit new s') = T.role s := by
  obtain ⟨hvalid, hgone, hothers⟩ := role_deleteAll h.valid new
  refine ⟨hvalid, funext fun v => ?_⟩
  by_cases hv : v ∈ new
  · rw [hgone v hv, h.fresh v hv]
  · rw [hothers v hv, h.others v hv]

/-! ## One import -/

/-- The variables of an import are in place: one member for each specifier, in order, that imports it,
all from the same module, and a proxy that has the statement as its value. -/
structure Shows (kit : Kit S M V D O) (T : kit.Nodes home) (s : S) (cell : ImportCell)
    (group : Group V) : Prop where
  source : group.source = cell.source
  members : ∃ imported, Forall₂ (fun b v => T.role s v = some (.imported b.name (some b.newName) imported))
    cell.specifiers group.members
  proxy : T.role s group.proxy = some (.value none [] (kit.constant (kit.format cell)))

/-- Members that import are alive. -/
theorem live_of_members {imported : M} {bindings : List Binding} {s : S} {members : List V}
    (h : Forall₂ (fun b v => T.role s v = some (.imported b.name (some b.newName) imported)) bindings
      members) : ∀ v ∈ members, T.role s v ≠ none := by
  intro v hv
  rw [List.forall₂_iff_get] at h
  obtain ⟨i, hi, rfl⟩ := List.getElem_of_mem hv
  have hrole : T.role s members[i] = _ := h.2 i (h.1 ▸ hi) hi
  rw [hrole]
  simp

/-- What is made for the specifiers is new; if nothing fails, each specifier has its import. -/
theorem grown_wireMembers {imported : M} {bindings : List Binding} {s s' : S}
    {result : Except Fault Unit} {members : List V} (hs : T.valid s)
    (h : wireMembers kit home imported bindings s = (result, members, s')) :
    T.Grown s s' members ∧ (result = .ok () →
      Forall₂ (fun b v => T.role s' v = some (.imported b.name (some b.newName) imported))
        bindings members) := by
  induction bindings generalizing s members with
  | nil =>
      cases h
      exact ⟨⟨hs, List.nodup_nil, by simp, fun v _ => rfl⟩, fun _ => Forall₂.nil⟩
  | cons b bindings ih =>
      obtain ⟨hvalid, -, hblank, -⟩ := T.newVariable hs (kit.observer (some b.newName))
      have hlive : T.role (kit.newVariable home (kit.observer (some b.newName)) s).2
          (kit.newVariable home (kit.observer (some b.newName)) s).1 ≠ none := by
        rw [hblank]
        simp
      obtain ⟨hvalid', hrole, hothers⟩ := T.importing hvalid hlive b.name b.newName imported
      have hfirst := grown_newVariable hs _ hvalid' hothers
      simp only [wireMembers] at h
      rcases himport : kit.importing _ b.name b.newName imported _ with ⟨_ | ⟨⟨⟩⟩, store⟩
      · rw [himport] at h hfirst
        cases h
        exact ⟨hfirst, fun hok => by cases hok⟩
      · rw [himport] at h hfirst hrole hvalid'
        simp only at h
        rcases hrest : wireMembers kit home imported bindings store with ⟨result', members', store'⟩
        rw [hrest] at h
        cases h
        obtain ⟨hgrown, hroles⟩ := ih hvalid' hrest
        refine ⟨hfirst.cons (by rw [hrole rfl]; simp) hgrown, fun hok => ?_⟩
        exact Forall₂.cons (hgrown.stays (hrole rfl)) (hroles hok)

/-- Making the variables of an import fails and leaves the nodes as they were, whichever of the
specifiers failed, or adds the nodes of a group. -/
theorem role_wireGroup {s : S} (hs : T.valid s) (cell : ImportCell) (imported : M) :
    (∃ fault s', wireGroup kit cell home imported s = (.error fault, s') ∧ T.valid s' ∧
      T.role s' = T.role s) ∨
    ∃ group s', wireGroup kit cell home imported s = (.ok group, s') ∧ T.Grown s s' group.nodes ∧
      Shows kit T s' cell group := by
  rcases hmembers : wireMembers kit home imported cell.specifiers s with ⟨result, members, s₁⟩
  obtain ⟨hgrown, hroles⟩ := grown_wireMembers hs hmembers
  unfold wireGroup
  rw [hmembers]
  cases result with
  | error fault => exact Or.inl ⟨fault, _, rfl, role_undone hgrown⟩
  | ok _ =>
      have hroles := hroles rfl
      obtain ⟨hvalid, -, hblank, -⟩ := T.newVariable hgrown.valid (kit.observer none)
      obtain ⟨hvalid', hrole, hothers⟩ := T.define hvalid (by rw [hblank]; simp) none []
        (kit.constant (kit.format cell))
      -- the proxy is one more new node, whether or not its definition succeeds
      have hproxy := grown_newVariable hgrown.valid _ hvalid' hothers
      have hall := hgrown.concat (live_of_members hroles) hproxy
      simp only
      rcases hdefine : kit.define _ none [] (kit.constant (kit.format cell)) _ with ⟨fault | _, s₂⟩
      · rw [hdefine] at hall
        exact Or.inl ⟨fault, _, rfl, role_undone hall⟩
      · rw [hdefine] at hall hrole hproxy
        refine Or.inr ⟨_, s₂, rfl, hall, rfl, ⟨imported, ?_⟩, hrole rfl⟩
        exact hroles.imp fun b v hv => hproxy.stays hv

/-- Wiring an import fails and leaves the nodes as they were, or adds a group with its nodes. -/
theorem role_wire {a : Assembly S M V} (hhome : a.home = home) (hvalid : T.valid a.store)
    {resolve : Resolver S M O} (hresolve : T.Spared resolve) (cell : ImportCell) :
    (∃ e store, a.wire kit resolve cell = (.error e, { a with store }) ∧ T.valid store ∧
      T.role store = T.role a.store) ∨
    ∃ group store, a.wire kit resolve cell = (.ok (), { a with store, groups := a.groups ++ [group] }) ∧
      T.Grown a.store store group.nodes ∧ Shows kit T store cell group := by
  subst hhome
  obtain ⟨hvalid₁, hrole₁⟩ := hresolve
    { source := cell.source, home := a.home, observer := kit.observer } rfl a.store hvalid
  unfold wire
  simp only at hvalid₁ hrole₁ ⊢
  rcases hresolved : resolve _ a.store with ⟨e | imported, s₁⟩
  · rw [hresolved] at hvalid₁ hrole₁
    exact Or.inl ⟨e, s₁, rfl, hvalid₁, hrole₁⟩
  · rw [hresolved] at hvalid₁ hrole₁
    simp only at hvalid₁ hrole₁ ⊢
    rcases hderived : (if cell.injections = [] then (imported, s₁)
      else kit.derive imported cell.injections a.home s₁) with ⟨imported₂, s₂⟩
    have hsame : T.valid s₂ ∧ T.role s₂ = T.role s₁ := by
      split at hderived
      · cases hderived
        exact ⟨hvalid₁, rfl⟩
      · have hderive := T.derive hvalid₁ imported cell.injections
        rwa [hderived] at hderive
    rcases role_wireGroup hsame.1 cell imported₂ with
      ⟨fault, s₃, hgroup, hvalid₃, hrole₃⟩ | ⟨group, s₃, hgroup, hgrown, hshows⟩
    · rw [hgroup]
      exact Or.inl ⟨_, s₃, rfl, hvalid₃, hrole₃.trans (hsame.2.trans hrole₁)⟩
    · rw [hgroup]
      exact Or.inr ⟨group, s₃, rfl, hgrown.after (hsame.2.trans hrole₁), hshows⟩

/-! ## Owners -/

/-- The variables that an assembly has made and not deleted. -/
def owned (a : Assembly S M V) : List V :=
  a.vars ++ a.groups.flatMap Group.nodes

/-- Beside the nodes that were there from the start, exactly the owned ones are alive, each owned
once. -/
structure Owns (T : kit.Nodes home) (base : V → Option (Role M D)) (owned : List V) (s : S) : Prop where
  valid : T.valid s
  nodup : owned.Nodup
  live : ∀ v ∈ owned, T.role s v ≠ none
  fresh : ∀ v ∈ owned, base v = none
  others : ∀ v, v ∉ owned → T.role s v = base v

variable {base : V → Option (Role M D)} {owned owned' : List V} {s s' : S}

theorem Owns.kept (h : Owns T base owned s) (hvalid : T.valid s') (hrole : T.role s' = T.role s) :
    Owns T base owned s' where
  valid := hvalid
  nodup := h.nodup
  live := hrole ▸ h.live
  fresh := h.fresh
  others := hrole ▸ h.others

/-- New nodes have no owner yet, so they can be taken over. -/
theorem Owns.grown (h : Owns T base owned s) {new : List V} (hgrown : T.Grown s s' new)
    (hlive : ∀ v ∈ new, T.role s' v ≠ none) (hperm : owned'.Perm (owned ++ new)) :
    Owns T base owned' s' := by
  have hdisjoint : ∀ v ∈ owned, v ∉ new := fun v hv hnew => h.live v hv (hgrown.fresh v hnew)
  have hmem : ∀ v, v ∈ owned' ↔ v ∈ owned ∨ v ∈ new := fun v => by rw [hperm.mem_iff, List.mem_append]
  refine ⟨hgrown.valid, ?_, ?_, ?_, ?_⟩
  · rw [hperm.nodup_iff, List.nodup_append']
    exact ⟨h.nodup, hgrown.nodup, fun v hv hnew => hdisjoint v hv hnew⟩
  · intro v hv
    rcases (hmem v).mp hv with hold | hnew
    · rw [hgrown.others v (hdisjoint v hold)]
      exact h.live v hold
    · exact hlive v hnew
  · intro v hv
    rcases (hmem v).mp hv with hold | hnew
    · exact h.fresh v hold
    · rw [← h.others v fun hold => hdisjoint v hold hnew]
      exact hgrown.fresh v hnew
  · intro v hv
    rw [hmem, not_or] at hv
    rw [hgrown.others v hv.2, h.others v hv.1]

/-- Nodes that are deleted are given up. -/
theorem Owns.deleted (h : Owns T base owned s) {gone : List V} (hperm : owned.Perm (gone ++ owned')) :
    Owns T base owned' (deleteAll kit gone s) := by
  obtain ⟨hvalid, hgone, hothers⟩ := role_deleteAll h.valid gone
  have hnodup := h.nodup
  rw [hperm.nodup_iff, List.nodup_append'] at hnodup
  obtain ⟨-, hnodup', hdisjoint⟩ := hnodup
  have hmem : ∀ v, v ∈ owned ↔ v ∈ gone ∨ v ∈ owned' := fun v => by rw [hperm.mem_iff, List.mem_append]
  refine ⟨hvalid, hnodup', ?_, ?_, ?_⟩
  · intro v hv
    rw [hothers v fun hmem => hdisjoint hmem hv]
    exact h.live v ((hmem v).mpr (Or.inr hv))
  · intro v hv
    exact h.fresh v ((hmem v).mpr (Or.inr hv))
  · intro v hv
    by_cases hv' : v ∈ gone
    · rw [hgone v hv', h.fresh v ((hmem v).mpr (Or.inl hv'))]
    · rw [hothers v hv', h.others]
      rw [hmem, not_or]
      exact ⟨hv', hv⟩

/-! ## Cells and their nodes -/

/-- The variable of a value cell is in place: it has the name and the references of the cell, and a
definition that was made of it. -/
def Defines (kit : Kit S M V D O) (T : kit.Nodes home) (s : S) (cell : ValueCell) (v : V) : Prop :=
  ∃ definition s₀ s₁, kit.compile cell home s₀ = (.ok definition, s₁) ∧
    T.role s v = some (.value cell.name cell.references definition)

/-- An assembly has the nodes of the given cells in its module, in their order, and no others but those
that were there from the start. -/
structure Holds (kit : Kit S M V D O) (T : kit.Nodes home) (base : V → Option (Role M D))
    (values : List ValueCell) (imports : List ImportCell) (a : Assembly S M V) : Prop where
  place : a.home = home
  owns : Owns T base a.owned a.store
  values : Forall₂ (Defines kit T a.store) values a.vars
  imports : Forall₂ (Shows kit T a.store) imports a.groups

variable {values : List ValueCell} {imports : List ImportCell} {a : Assembly S M V}

/-- Roles that are kept keep a value cell in place. -/
theorem Defines.imp {cell : ValueCell} {v : V} (h : Defines kit T s cell v)
    (hstays : ∀ role, T.role s v = some role → T.role s' v = some role) : Defines kit T s' cell v := by
  obtain ⟨definition, s₀, s₁, hcompile, hrole⟩ := h
  exact ⟨definition, s₀, s₁, hcompile, hstays _ hrole⟩

/-- Roles that are kept keep an import in place. -/
theorem Shows.imp {cell : ImportCell} {group : Group V} (h : Shows kit T s cell group)
    (hstays : ∀ v ∈ group.nodes, ∀ role, T.role s v = some role → T.role s' v = some role) :
    Shows kit T s' cell group := by
  obtain ⟨imported, hmembers⟩ := h.members
  refine ⟨h.source, ⟨imported, ?_⟩, hstays _ (by simp [Group.nodes]) _ h.proxy⟩
  exact forall₂_imp_mem hmembers fun b v hv hrole => hstays v (List.mem_append_left _ hv) _ hrole

/-- An import that is in place has live nodes. -/
theorem Shows.live {cell : ImportCell} {group : Group V} (h : Shows kit T s cell group) :
    ∀ v ∈ group.nodes, T.role s v ≠ none := by
  intro v hv
  obtain ⟨imported, hmembers⟩ := h.members
  rcases List.mem_append.mp hv with hmember | hproxy
  · exact live_of_members hmembers v hmember
  · rw [List.mem_singleton.mp hproxy, h.proxy]
    simp

/-- What happens outside the module's nodes does not matter. -/
theorem Holds.kept (h : Holds kit T base values imports a) {store : S} (hvalid : T.valid store)
    (hrole : T.role store = T.role a.store) :
    Holds kit T base values imports { a with store } where
  place := h.place
  owns := h.owns.kept hvalid hrole
  values := h.values.imp fun _ v hv => hv.imp fun _ hstays => (congrFun hrole v).trans hstays
  imports := h.imports.imp fun _ _ hv => hv.imp fun v _ _ hstays => (congrFun hrole v).trans hstays

/-- A value cell that comes in gets its node at the end. One that fails leaves the nodes as they were,
provided that it is the compilation that fails. -/
theorem Holds.addValue (h : Holds kit T base values imports a)
    (hcompile : ∀ cell, T.Keeps fun s => (kit.compile cell home s).2) (cell : ValueCell) :
    match a.addValue kit cell with
    | (.error _, b) => (∀ s definition s', kit.compile cell home s = (.ok definition, s') →
        T.accepts cell.name cell.references definition) → Holds kit T base values imports b
    | (.ok (), b) => Holds kit T base (values ++ [cell]) imports b := by
  obtain rfl := h.place
  unfold Assembly.addValue
  obtain ⟨hvalid, hsame⟩ := hcompile cell a.store h.owns.valid
  rcases hcompiled : kit.compile cell a.home a.store with ⟨e | definition, s₁⟩
  · simp only [hcompiled] at hvalid hsame
    exact fun _ => h.kept hvalid hsame
  · simp only [hcompiled] at hvalid hsame
    obtain ⟨hvalid₂, -, hblank, -⟩ := T.newVariable hvalid (kit.observer cell.name)
    obtain ⟨hvalid₃, hrole, hothers⟩ := T.define hvalid₂ (by rw [hblank]; simp) cell.name
      cell.references definition
    have hgrown := (grown_newVariable hvalid _ hvalid₃ hothers).after hsame
    simp only
    rcases hdefine : kit.define _ cell.name cell.references definition _ with ⟨fault | _, s₂⟩
    · intro haccepts
      have hok := T.accepted hvalid₂ hblank (haccepts a.store definition s₁ hcompiled)
      rw [hdefine] at hok
      cases hok
    · rw [hdefine] at hgrown hrole
      have hrole := hrole rfl
      refine ⟨rfl, h.owns.grown hgrown ?_ ?_, ?_, ?_⟩
      · intro v hv
        rw [List.mem_singleton.mp hv, hrole]
        simp
      · simp only [Assembly.owned, List.append_assoc]
        exact List.perm_append_comm.append_left _
      · exact List.rel_append (h.values.imp fun _ v hv => hv.imp fun _ => hgrown.stays)
          (Forall₂.cons ⟨definition, a.store, s₁, hcompiled, hrole⟩ Forall₂.nil)
      · exact h.imports.imp fun _ _ hv => hv.imp fun v _ _ => hgrown.stays

/-- An import that is wired gets its nodes at the end. One that fails leaves the nodes as they were. -/
theorem Holds.wire (h : Holds kit T base values imports a) {resolve : Resolver S M O}
    (hresolve : T.Spared resolve) (cell : ImportCell) :
    match a.wire kit resolve cell with
    | (.error _, b) => Holds kit T base values imports b ∧ T.role b.store = T.role a.store
    | (.ok (), b) => Holds kit T base values (imports ++ [cell]) b := by
  rcases role_wire h.place h.owns.valid hresolve cell with
    ⟨e, store, hwire, hvalid, hrole⟩ | ⟨group, store, hwire, hgrown, hshows⟩
  · rw [hwire]
    exact ⟨h.kept hvalid hrole, hrole⟩
  · rw [hwire]
    refine ⟨h.place, h.owns.grown hgrown hshows.live ?_, ?_, ?_⟩
    · simp [Assembly.owned]
    · exact h.values.imp fun _ v hv => hv.imp fun _ => hgrown.stays
    · exact List.rel_append (h.imports.imp fun _ _ hv => hv.imp fun v _ _ => hgrown.stays)
        (Forall₂.cons hshows Forall₂.nil)

/-- Imports wired in order get their nodes in that order. -/
theorem Holds.wireAll (h : Holds kit T base values imports a) {resolve : Resolver S M O}
    (hresolve : T.Spared resolve) (cells : List ImportCell) :
    Holds kit T base values (imports ++ (a.wirings kit resolve cells).map Prod.fst)
      (a.wireAll kit resolve cells).2 := by
  induction cells generalizing a imports with
  | nil =>
      simp only [Assembly.wireAll, wirings, List.map_nil, List.append_nil]
      exact ⟨h.place, h.owns, h.values, h.imports⟩
  | cons cell cells ih =>
      have hfirst := h.wire hresolve cell
      rcases wire_cases kit resolve cell a with ⟨e, store, hwire⟩ | ⟨group, store, -, hwire⟩
      · rw [wirings_of_error hwire]
        simp only [hwire] at hfirst
        simp only [Assembly.wireAll, hwire, List.map_nil, List.append_nil]
        exact ⟨h.place, hfirst.1.owns, hfirst.1.values, hfirst.1.imports⟩
      · rw [wirings_of_ok hwire]
        simp only [hwire] at hfirst
        simp only [Assembly.wireAll, hwire, List.map_cons]
        rw [← List.singleton_append, ← List.append_assoc]
        exact ih hfirst

/-- Removing an import deletes its nodes and no others. -/
theorem Holds.removeImport (h : Holds kit T base values imports a) (index : Nat) :
    Holds kit T base values (imports.eraseIdx index) (a.removeImport kit index).2 := by
  unfold Assembly.removeImport
  cases hgroup : a.groups[index]? with
  | none =>
      have hlength : imports.length ≤ index := by
        rw [h.imports.length_eq]
        exact List.getElem?_eq_none_iff.mp hgroup
      rw [List.eraseIdx_of_length_le hlength]
      exact h
  | some group =>
      obtain ⟨before, after, hsplit, herase⟩ : ∃ before after,
          a.groups = before ++ group :: after ∧ a.groups.eraseIdx index = before ++ after := by
        obtain ⟨hindex, rfl⟩ := List.getElem?_eq_some_iff.mp hgroup
        refine ⟨a.groups.take index, a.groups.drop (index + 1), ?_, List.eraseIdx_eq_take_drop_succ _ _⟩
        rw [List.getElem_cons_drop, List.take_append_drop]
      have hperm : a.owned.Perm (group.nodes ++ (a.vars ++ (before ++ after).flatMap Group.nodes)) := by
        simp only [Assembly.owned, hsplit, List.flatMap_append, List.flatMap_cons]
        exact (List.perm_append_comm_assoc _ _ _).append_left _ |>.trans (List.perm_append_comm_assoc _ _ _)
      have himports : Forall₂ (Shows kit T a.store) (imports.eraseIdx index) (before ++ after) := by
        rw [← herase, List.eraseIdx_eq_take_drop_succ, List.eraseIdx_eq_take_drop_succ]
        exact List.rel_append (List.forall₂_take index h.imports) (List.forall₂_drop (index + 1) h.imports)
      -- what is still owned is not among the deleted nodes
      have hstays : ∀ v ∈ a.vars ++ (before ++ after).flatMap Group.nodes, ∀ role,
          T.role a.store v = some role → T.role (deleteAll kit group.nodes a.store) v = some role := by
        intro v hv role hrole
        have hnodup := h.owns.nodup
        rw [hperm.nodup_iff, List.nodup_append'] at hnodup
        rw [(role_deleteAll h.owns.valid group.nodes).2.2 v fun hgone => hnodup.2.2 hgone hv, hrole]
      simp only [herase]
      refine ⟨h.place, h.owns.deleted hperm, ?_, ?_⟩
      · exact forall₂_imp_mem h.values fun cell v hv hdefines =>
          hdefines.imp (hstays v (List.mem_append_left _ hv))
      · exact forall₂_imp_mem himports fun cell other hother hshows => hshows.imp fun v hv =>
          hstays v (List.mem_append_right _ (List.mem_flatMap.mpr ⟨other, hother, hv⟩))

/-! ## Runs -/

/-- A move that does not reach past the assembly into its module: the definition that is made of a value
cell can be given to a new variable, and a resolver leaves the nodes of the module alone. -/
def Move.Suits (kit : Kit S M V D O) (T : kit.Nodes home) : Move S M O → Prop
  | .value cell => ∀ s definition s', kit.compile cell home s = (.ok definition, s') →
      T.accepts cell.name cell.references definition
  | .finalize resolve => T.Spared resolve
  | .imports _ | .remove _ => True

/-- The law for one move. -/
theorem Holds.step {r : Record V} (h : Holds kit T base r.values (r.present.map Prod.fst) a)
    (hcompile : ∀ cell, T.Keeps fun s => (kit.compile cell home s).2) {move : Move S M O}
    (hmove : move.Suits kit T) :
    let state := move.step kit (a, r)
    Holds kit T base state.2.values (state.2.present.map Prod.fst) state.1 := by
  cases move with
  | value cell =>
      have hvalue := h.addValue hcompile cell
      simp only [Move.step, Move.apply, Move.note]
      rcases hadd : a.addValue kit cell with ⟨_ | ⟨⟨⟩⟩, b⟩
      · rw [hadd] at hvalue
        exact hvalue hmove
      · rw [hadd] at hvalue
        exact hvalue
  | imports cell => exact ⟨h.place, h.owns, h.values, h.imports⟩
  | finalize resolve =>
      simp only [Move.step, Move.apply, Move.note, List.map_append]
      exact h.wireAll hmove a.pending
  | remove index =>
      simp only [Move.step, Move.apply, Move.note, ← List.eraseIdx_map]
      exact h.removeImport index

/-- The law for a run. -/
theorem Holds.run (h : Holds kit T base [] [] a)
    (hcompile : ∀ cell, T.Keeps fun s => (kit.compile cell home s).2) {moves : List (Move S M O)}
    (hmoves : ∀ move ∈ moves, move.Suits kit T) :
    let state := Move.run kit a moves
    Holds kit T base state.2.values (state.2.present.map Prod.fst) state.1 := by
  have hrun : ∀ (moves : List (Move S M O)) (state : Assembly S M V × Record V),
      (∀ move ∈ moves, move.Suits kit T) →
      Holds kit T base state.2.values (state.2.present.map Prod.fst) state.1 →
      Holds kit T base (moves.foldl (Move.step kit) state).2.values
        ((moves.foldl (Move.step kit) state).2.present.map Prod.fst)
        (moves.foldl (Move.step kit) state).1 := by
    intro moves
    induction moves with
    | nil => exact fun state _ hstate => hstate
    | cons move moves ih =>
        intro state hmoves hstate
        rw [List.forall_mem_cons] at hmoves
        exact ih _ hmoves.2 (hstate.step hcompile hmoves.1)
  exact hrun moves (a, {}) hmoves h

/-- An assembly that has made nothing holds nothing. -/
theorem holds_start (kit : Kit S M V D O) (home : Option M) (store : S)
    (T : kit.Nodes (start kit home store).home) (hvalid : T.valid (start kit home store).store) :
    Holds kit T (T.role (start kit home store).store) [] [] (start kit home store) := by
  have hnothing : (start kit home store).vars = [] ∧ (start kit home store).groups = [] := by
    cases home <;> exact ⟨rfl, rfl⟩
  have howned : (start kit home store).owned = [] := by
    rw [Assembly.owned, hnothing.1, hnothing.2]
    rfl
  refine ⟨rfl, ?_, ?_, ?_⟩
  · rw [howned]
    exact ⟨hvalid, List.nodup_nil, by simp, by simp, fun v _ => rfl⟩
  · rw [hnothing.1]
    exact Forall₂.nil
  · rw [hnothing.2]
    exact Forall₂.nil

/-- A finalization that fails stops at an import that leaves the nodes as they were after the imports
before it. -/
theorem Holds.finalize_error (h : Holds kit T base values imports a) {resolve : Resolver S M O}
    (hresolve : T.Spared resolve) {e : Error} {b : Assembly S M V}
    (herror : a.finalize kit resolve = (.error e, b)) :
    ∃ done failed rest c, a.pending = done ++ failed :: rest ∧
      a.wireAll kit resolve done = (.ok (), c) ∧ (c.wire kit resolve failed).1 = .error e ∧
      b.pending = failed :: rest ∧ b.vars = c.vars ∧ b.groups = c.groups ∧
      T.role b.store = T.role c.store := by
  have hwired := wireAll_wired kit resolve a.pending a
  rw [show a.wireAll kit resolve a.pending = (.error e, b) from herror] at hwired
  obtain ⟨c, hdone, failed, rest, store, hb, hfailed⟩ := hwired.outcome
  obtain rfl : b = _ := hb
  have hc := h.wireAll hresolve ((a.wirings kit resolve a.pending).map Prod.fst)
  rw [hdone] at hc
  have hnext := hc.wire hresolve failed
  rw [hfailed] at hnext
  exact ⟨_, failed, rest, c, hwired.queue, hdone, by rw [hfailed], rfl, rfl, rfl, hnext.2⟩

/-- The variables of an assembly in three parts. -/
theorem owned_perm (a : Assembly S M V) :
    a.owned.Perm (a.vars ++ (a.groups.flatMap Group.members ++ a.groups.map Group.proxy)) := by
  rw [List.map_eq_flatMap]
  exact (List.flatMap_append_perm a.groups _ _).symm.append_left a.vars

/-- Every live node has one owner, and a failed import leaves none behind. In a module that starts empty,
over every run of an assembly whose value cells can be defined, and whatever imports fail: the live nodes
of the module are exactly the variables of the value cells, the members of the groups and the proxies of
the groups, and no two of these are the same. The variables belong to the value cells registered, in
order, and the groups to the imports present, in order, with one member for each specifier, in order, and
a proxy. A finalization that fails leaves the groups and the roles of all nodes as they were after the
last import that succeeded. -/
theorem nodes_owned_once (kit : Kit S M V D O) (home : Option M) (store : S)
    (T : kit.Nodes (start kit home store).home) (moves : List (Move S M O))
    (hvalid : T.valid (start kit home store).store)
    (hempty : ∀ v, T.role (start kit home store).store v = none)
    (hcompile : ∀ cell, T.Keeps fun s => (kit.compile cell (start kit home store).home s).2)
    (hmoves : ∀ move ∈ moves, move.Suits kit T) :
    let a := (Move.run kit (start kit home store) moves).1
    let r := (Move.run kit (start kit home store) moves).2
    (∀ v, T.role a.store v ≠ none ↔
      v ∈ a.vars ∨ v ∈ a.groups.flatMap Group.members ∨ v ∈ a.groups.map Group.proxy) ∧
    (a.vars ++ (a.groups.flatMap Group.members ++ a.groups.map Group.proxy)).Nodup ∧
    Forall₂ (Defines kit T a.store) r.values a.vars ∧
    Forall₂ (Shows kit T a.store) (r.present.map Prod.fst) a.groups ∧
    ∀ resolve, T.Spared resolve → ∀ e b, a.finalize kit resolve = (.error e, b) →
      ∃ done failed rest c, a.pending = done ++ failed :: rest ∧
        a.wireAll kit resolve done = (.ok (), c) ∧ (c.wire kit resolve failed).1 = .error e ∧
        b.pending = failed :: rest ∧ b.vars = c.vars ∧ b.groups = c.groups ∧
        T.role b.store = T.role c.store := by
  intro a r
  have hholds : Holds kit T _ r.values (r.present.map Prod.fst) a :=
    (holds_start kit home store T hvalid).run hcompile hmoves
  have hperm := owned_perm a
  refine ⟨?_, hperm.nodup_iff.mp hholds.owns.nodup, hholds.values, hholds.imports, ?_⟩
  · intro v
    rw [← List.mem_append, ← List.mem_append, ← hperm.mem_iff]
    refine ⟨fun hlive => ?_, hholds.owns.live v⟩
    by_contra hother
    exact hlive ((hholds.owns.others v hother).trans (hempty v))
  · intro resolve hresolve e b herror
    exact hholds.finalize_error hresolve herror

/-- Two imports over a ledger, the second of which fails at its second specifier: its variables are gone
again when the next value cell comes, and trying once more changes no node. -/
theorem nodes_owned_once_after_failure :
    let kit := Ledger.kit false
    let moves : List (Move Ledger Nat String) :=
      [.value ⟨some "x", [], "1", none⟩, .imports ⟨"p", [⟨"a", "a"⟩, ⟨"b", "c"⟩], []⟩,
        .imports ⟨"q", [⟨"d", "d"⟩, ⟨"broken", "e"⟩], [⟨"x", "y"⟩]⟩, .finalize Ledger.resolve,
        .value ⟨some "z", ["a"], "2", none⟩]
    let a := (Move.run kit (start kit none {}) moves).1
    (∀ move ∈ moves, move.Suits kit (Ledger.nodes 0)) ∧
      (a.vars, a.groups.flatMap Group.members, a.groups.map Group.proxy) = ([0, 6], [1, 2], [3]) ∧
      (∀ v, (Ledger.nodes 0).role a.store v ≠ none ↔ v ∈ [0, 6] ∨ v ∈ [1, 2] ∨ v ∈ [3]) ∧
      ∃ c, a.wireAll kit Ledger.resolve [] = (.ok (), c) ∧
        (Ledger.nodes 0).role (a.finalize kit Ledger.resolve).2.store = (Ledger.nodes 0).role c.store := by
  intro kit moves a
  have hmoves : ∀ move ∈ moves, move.Suits kit (Ledger.nodes 0) := by
    simp only [moves, List.forall_mem_cons, List.not_mem_nil, false_imp_iff, implies_true, and_true]
    refine ⟨fun _ _ _ _ => ?_, trivial, trivial, Ledger.spared_resolve 0, fun _ _ _ _ => ?_⟩
    · show Text.occurs "broken".toList "x".toList = false
      decide
    · show Text.occurs "broken".toList "z".toList = false
      decide
  have hparts : (a.vars, a.groups.flatMap Group.members, a.groups.map Group.proxy) =
      ([0, 6], [1, 2], [3]) := by decide +kernel
  obtain ⟨hlive, -, -, -, hfailure⟩ := nodes_owned_once kit none {} (Ledger.nodes 0) moves
    (fun v hv => absurd hv (List.not_mem_nil)) (fun v => rfl) (Ledger.keeps_compile false 0) hmoves
  obtain ⟨hvars, hmembers, hproxies⟩ : a.vars = [0, 6] ∧ a.groups.flatMap Group.members = [1, 2] ∧
      a.groups.map Group.proxy = [3] := by simpa using hparts
  refine ⟨hmoves, hparts, ?_, ?_⟩
  · intro v
    have hv := hlive v
    rwa [hvars, hmembers, hproxies] at hv
  · have herror : (a.finalize kit Ledger.resolve).1 = .error (.graph (.notDefined "broken")) := by
      decide +kernel
    obtain ⟨done, failed, rest, c, hpending, hdone, -, -, -, -, hrole⟩ :=
      hfailure Ledger.resolve (Ledger.spared_resolve 0) _ (a.finalize kit Ledger.resolve).2
        (by rw [← herror])
    have hlength : a.pending.length = 1 := by decide +kernel
    obtain rfl : done = [] := by
      rw [show a.pending = done ++ failed :: rest from hpending, List.length_append,
        List.length_cons] at hlength
      exact List.length_eq_zero_iff.mp (by omega)
    exact ⟨c, hdone, hrole⟩

end Assembly

end CellGraph
