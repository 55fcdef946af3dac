import CellGraph.Proofs.Ast
import CellGraph.Proofs.Extraction.Parameters

/-!
# Occurrences in the body

Which nodes of a body are replaced is said here by the tree and the references alone: `Marked` are the views
and mutables of the body that say the same as a reference. `Covers` is when such a node has its text in the
body, and `Stands` what the patch for it is, given the parameters.

Gathering finds the marked nodes once for each reference that asks for them. It fails just if one of them
has no text in the body (`gather_outcome`, `foldlM_gather_outcome`). Otherwise the patches stay in order, a
patch for a node that was found is kept as long as no other node starts there (`Placed.gather`), and each
patch comes from such a node (`stems_of_foldlM`).
-/

namespace CellGraph.Extraction

open Ast Text

/-! ## Marked nodes -/

/-- A view or a mutable. -/
def Decorated (node : Node) : Prop :=
  node.kind = .viewExpression ∨ node.kind = .mutableExpression

instance : DecidablePred Decorated := fun _ => inferInstanceAs (Decidable (_ ∨ _))

/-- Two nodes say the same: they have one kind and one inner name. -/
def Alike (a b : Node) : Prop :=
  a.kind = b.kind ∧ a.innerName? = b.innerName?

instance (a b : Node) : Decidable (Alike a b) := inferInstanceAs (Decidable (_ ∧ _))

/-- The nodes of the body that are to be replaced: views and mutables that say the same as a reference. -/
def Marked (body : Node) (references : List Node) (node : Node) : Prop :=
  body.Descends node ∧ Decorated node ∧ ∃ reference ∈ references, Alike node reference

/-- What is written for a node: its parameter, and for a mutable the value of that. -/
def standIn (node : Node) (parameter : String) : List Char :=
  parameter.toList ++ if node.kind = .mutableExpression then ".value".toList else []

/-- The patch is the one for the node: it has the range of the node in a body that begins at the offset, and
writes the parameter that the node's canonical name is bound to. -/
structure Stands (bound : List (String × String)) (offset : Nat) (node : Node) (patch : Patch) :
    Prop where
  start : node.span.start = offset + patch.start
  stop : node.span.stop = offset + patch.stop
  text : ∃ name parameter, canonicalName? node = some name ∧ bound.lookup name = some parameter ∧
    patch.text = standIn node parameter

section

variable {a b : Node}

theorem Alike.decorated_iff (h : Alike a b) : Decorated a ↔ Decorated b := by
  rw [Decorated, Decorated, h.1]

theorem Alike.canonicalName?_eq (h : Alike a b) : canonicalName? a = canonicalName? b := by
  rw [canonicalName?, canonicalName?, h.2, Form.of, Form.of, h.1]

theorem Alike.standIn_eq (h : Alike a b) (parameter : String) : standIn a parameter = standIn b parameter := by
  rw [standIn, standIn, h.1]

end

theorem mem_occurrences {body reference node : Node} (hbody : Node.ofFields? body.fields = some body) :
    node ∈ occurrences body reference ↔ body.Descends node ∧ Alike node reference := by
  rw [occurrences, List.mem_filter, Node.mem_walk_iff hbody, decide_eq_true_eq]
  rfl

theorem Marked.of_mem {body reference node : Node} {references : List Node}
    (hbody : Node.ofFields? body.fields = some body) (hreference : reference ∈ references)
    (hdecorated : Decorated reference) (h : node ∈ occurrences body reference) :
    Marked body references node := by
  obtain ⟨hdescends, halike⟩ := (mem_occurrences hbody).mp h
  exact ⟨hdescends, halike.decorated_iff.mpr hdecorated, reference, hreference, halike⟩

theorem Stands.unique {bound : List (String × String)} {offset : Nat} {node : Node} {p q : Patch}
    (hp : Stands bound offset node p) (hq : Stands bound offset node q) : p = q := by
  obtain ⟨name, parameter, hname, hlookup, htext⟩ := hp.text
  obtain ⟨name', parameter', hname', hlookup', htext'⟩ := hq.text
  obtain rfl := Option.some.inj (hname.symm.trans hname')
  obtain rfl := Option.some.inj (hlookup.symm.trans hlookup')
  have hstart := hp.start.symm.trans hq.start
  have hstop := hp.stop.symm.trans hq.stop
  rcases p with ⟨start, stop, text⟩
  rcases q with ⟨start', stop', text'⟩
  rw [Patch.mk.injEq]
  exact ⟨Nat.add_left_cancel hstart, Nat.add_left_cancel hstop, htext.trans htext'.symm⟩

/-- What was bound stays bound as more is. -/
theorem Stands.append {bound : List (String × String)} {offset : Nat} {node : Node} {patch : Patch}
    (h : Stands bound offset node patch) (added : List (String × String)) :
    Stands (bound ++ added) offset node patch := by
  obtain ⟨name, parameter, hname, hlookup, htext⟩ := h.text
  refine ⟨h.start, h.stop, name, parameter, hname, ?_, htext⟩
  rw [List.lookup_append, hlookup]
  rfl

/-! ## One reference -/

theorem exists_canonicalName? {reference : Node} (h : reference.innerName? ≠ none) :
    ∃ name, canonicalName? reference = some name := by
  obtain ⟨inner, hinner⟩ := Option.ne_none_iff_exists'.mp h
  rw [canonicalName?, hinner]
  exact ⟨_, rfl⟩

theorem replacement?_of_decorated {reference : Node} (h : Decorated reference) (token : String) :
    ∃ text, (Form.of reference).replacement? token = some text ∧ text.toList = standIn reference token := by
  rw [Form.of, standIn]
  rcases h with hview | hmutable
  · rw [hview]
    exact ⟨token, rfl, (List.append_nil _).symm⟩
  · rw [hmutable]
    exact ⟨token ++ ".value", rfl, String.toList_append⟩

theorem replacement?_of_not_decorated {reference : Node} (h : ¬ Decorated reference) (token : String) :
    (Form.of reference).replacement? token = none := by
  rw [Decorated, not_or] at h
  rw [Form.of]
  split
  · exact absurd ‹_› h.1
  · exact absurd ‹_› h.2
  · rfl

/-- The patches that a reference adds. -/
def addedPatches (body : Node) (g : Gathered) (reference : Node) : List Patch :=
  if Decorated reference then
    (occurrences body reference).map
      (patchFor body.span.start (standIn reference (chooseToken g reference).1))
  else []

theorem mem_addedPatches {body reference : Node} {g : Gathered} {patch : Patch} :
    patch ∈ addedPatches body g reference ↔ Decorated reference ∧ ∃ node ∈ occurrences body reference,
      patchFor body.span.start (standIn reference (chooseToken g reference).1) node = patch := by
  rw [addedPatches]
  split_ifs with hdecorated
  · rw [List.mem_map, and_iff_right hdecorated]
  · exact ⟨fun hmem => absurd hmem List.not_mem_nil, fun h => absurd h.1 hdecorated⟩

/-- A reference fails on an occurrence without a text in the body, or adds its patches. -/
theorem gather_outcome (body : Node) (source : List Char) (g : Gathered) (reference : Node) :
    (Decorated reference ∧ ∃ node ∈ occurrences body reference,
      ¬ Covers body.span.start source node.span ∧
      gather body source g reference = .error (.tree .occurrenceOutsideBody (some node.span))) ∨
    (Decorated reference → ∀ node ∈ occurrences body reference,
      Covers body.span.start source node.span) ∧
      ∃ g', gather body source g reference = .ok g' ∧
        g'.patches = Patch.insertAll (addedPatches body g reference) g.patches := by
  by_cases hdecorated : Decorated reference
  · obtain ⟨text, hreplacement, htext⟩ :=
      replacement?_of_decorated hdecorated (chooseToken g reference).1
    rw [gather, addedPatches, if_pos hdecorated]
    dsimp only
    rw [hreplacement, ← htext]
    rcases addPatches_outcome body.span.start source text.toList (occurrences body reference) g.patches
      with ⟨node, hnode, hout, herror⟩ | ⟨hall, hok⟩
    · refine .inl ⟨hdecorated, node, hnode, hout, ?_⟩
      simp only [herror, bind, Except.bind]
    · refine .inr ⟨fun _ => hall, ?_⟩
      simp only [hok, bind, Except.bind]
      exact ⟨_, rfl, rfl⟩
  · refine .inr ⟨fun h => absurd h hdecorated, ?_⟩
    rw [gather, addedPatches, if_neg hdecorated]
    dsimp only
    rw [replacement?_of_not_decorated hdecorated]
    exact ⟨_, rfl, rfl⟩

theorem gather_patches {body reference : Node} {source : List Char} {g g' : Gathered}
    (h : gather body source g reference = .ok g') :
    (Decorated reference → ∀ node ∈ occurrences body reference,
      Covers body.span.start source node.span) ∧
      g'.patches = Patch.insertAll (addedPatches body g reference) g.patches := by
  rcases gather_outcome body source g reference with ⟨-, node, -, -, herror⟩ | ⟨hall, after, hok, hpatches⟩
  · rw [herror] at h
    cases h
  · obtain rfl := Except.ok.inj (hok.symm.trans h)
    exact ⟨hall, hpatches⟩

/-- A reference with a name finds it bound to the parameter chosen for it, or binds it. -/
theorem gather_lookup {body reference : Node} {source : List Char} {g g' : Gathered} {name : String}
    (h : gather body source g reference = .ok g') (hname : canonicalName? reference = some name) :
    g'.bound.lookup name = some (chooseToken g reference).1 := by
  have hcanonical : name = (canonicalName? reference).getD (chooseToken g reference).1 := by
    rw [hname]
    rfl
  obtain ⟨hbound, -⟩ := gather_bound h Prod.mk.eta.symm hcanonical
  rw [hbound]
  split_ifs with hmem
  · obtain ⟨token, hlookup⟩ := Option.isSome_iff_exists.mp (isSome_lookup_iff.mpr hmem)
    rw [chooseToken, hname, Option.bind_some, hlookup]
  · rw [List.lookup_append, lookup_eq_none_iff_not_mem.mpr hmem]
    simp

theorem gather_bound_append {body reference : Node} {source : List Char} {g g' : Gathered}
    (h : gather body source g reference = .ok g') : ∃ added, g'.bound = g.bound ++ added := by
  rcases (gather_cases h).1 with hsame | ⟨name, hnew⟩
  · exact ⟨[], by rw [hsame, List.append_nil]⟩
  · exact ⟨_, hnew⟩

/-- The patches that a reference with a name adds are those for its occurrences. -/
theorem stands_of_mem {body reference node : Node} {source : List Char} {g g' : Gathered}
    (hbody : Node.ofFields? body.fields = some body) (h : gather body source g reference = .ok g')
    (hdecorated : Decorated reference) (hnamed : reference.innerName? ≠ none)
    (hnode : node ∈ occurrences body reference) :
    Stands g'.bound body.span.start node
      (patchFor body.span.start (standIn reference (chooseToken g reference).1) node) := by
  obtain ⟨-, halike⟩ := (mem_occurrences hbody).mp hnode
  obtain ⟨hstart, hstop, -⟩ := covers_iff.mp ((gather_patches h).1 hdecorated node hnode)
  obtain ⟨name, hname⟩ := exists_canonicalName? hnamed
  refine ⟨(Nat.add_sub_of_le hstart).symm, (Nat.add_sub_of_le hstop).symm, name, _, ?_,
    gather_lookup h hname, (halike.standIn_eq _).symm⟩
  rw [halike.canonicalName?_eq, hname]

/-! ## All references -/

/-- Gathering reports a marked node without a text in the body, or all marked nodes have one. -/
theorem foldlM_gather_outcome {body : Node} (source : List Char)
    (hbody : Node.ofFields? body.fields = some body) (references : List Node) (g : Gathered) :
    (∃ node, Marked body references node ∧ ¬ Covers body.span.start source node.span ∧
      references.foldlM (gather body source) g = .error (.tree .occurrenceOutsideBody (some node.span))) ∨
    (∀ node, Marked body references node → Covers body.span.start source node.span) ∧
      ∃ g', references.foldlM (gather body source) g = .ok g' := by
  induction references generalizing g with
  | nil =>
      refine .inr ⟨?_, g, rfl⟩
      rintro node ⟨-, -, reference, hreference, -⟩
      cases hreference
  | cons reference references ih =>
      rw [List.foldlM_cons]
      rcases gather_outcome body source g reference with
        ⟨hdecorated, node, hnode, hout, herror⟩ | ⟨hall, next, hnext, -⟩
      · refine .inl ⟨node, .of_mem hbody List.mem_cons_self hdecorated hnode, hout, ?_⟩
        rw [herror]
        rfl
      rw [hnext]
      rcases ih next with ⟨node, ⟨hdescends, hdecorated, other, hother, halike⟩, hout, herror⟩ | ⟨hrest, hok⟩
      · exact .inl ⟨node, ⟨hdescends, hdecorated, other, List.mem_cons_of_mem _ hother, halike⟩, hout,
          herror⟩
      · refine .inr ⟨?_, hok⟩
        rintro node ⟨hdescends, hdecorated, other, hother, halike⟩
        rcases List.mem_cons.mp hother with rfl | hother
        · exact hall (halike.decorated_iff.mp hdecorated) node
            ((mem_occurrences hbody).mpr ⟨hdescends, halike⟩)
        · exact hrest node ⟨hdescends, hdecorated, other, hother, halike⟩

/-- Views and mutables of the body that start at one place are one node. -/
def StartsApart (body : Node) : Prop :=
  ∀ a b, body.Descends a → body.Descends b → Decorated a → Decorated b →
    a.span.start = b.span.start → a = b

/-- Marked nodes that start at one place are one node. -/
def Separate (body : Node) (references : List Node) : Prop :=
  ∀ a b, Marked body references a → Marked body references b → a.span.start = b.span.start → a = b

theorem startsApart_of_nodup {body : Node} (hbody : Node.ofFields? body.fields = some body)
    (h : ((body.walk.filter (Decorated ·)).map (·.span.start)).Nodup) : StartsApart body := by
  have hmem : ∀ {node}, body.Descends node → Decorated node → node ∈ body.walk.filter (Decorated ·) :=
    fun hdescends hdecorated =>
      List.mem_filter.mpr ⟨(Node.mem_walk_iff hbody).mpr hdescends, decide_eq_true_eq.mpr hdecorated⟩
  intro a b ha hb hdecorated hdecorated' hstart
  exact List.inj_on_of_nodup_map h (hmem ha hdecorated) (hmem hb hdecorated') hstart

theorem StartsApart.separate {body : Node} (h : StartsApart body) (references : List Node) :
    Separate body references :=
  fun a b ha hb hstart => h a b ha.1 hb.1 ha.2.1 hb.2.1 hstart

/-- The state of gathering after some references: the patches are in order, and the occurrences of the
references with a name have their patches. -/
structure Placed (body : Node) (references : List Node) (g : Gathered) : Prop where
  ordered : Patch.Ordered g.patches
  placed : ∀ reference ∈ references, Decorated reference → reference.innerName? ≠ none →
    ∀ node ∈ occurrences body reference, ∃ patch ∈ g.patches, Stands g.bound body.span.start node patch

theorem placed_empty (body : Node) : Placed body [] {} :=
  ⟨List.Pairwise.nil, List.forall_mem_nil _⟩

section

variable {body reference : Node} {source : List Char} {references earlier : List Node} {g g' : Gathered}

/-- An occurrence keeps its patch, or has it added, as long as no other marked node starts there. -/
theorem mem_patches_of_stands (hbody : Node.ofFields? body.fields = some body)
    (hseparate : Separate body references) (hreference : reference ∈ references)
    (h : gather body source g reference = .ok g') {node : Node} {patch : Patch}
    (hmarked : Marked body references node) (hnamed : node.innerName? ≠ none)
    (hstands : Stands g'.bound body.span.start node patch)
    (hmem : patch ∈ addedPatches body g reference ∨ patch ∈ g.patches) : patch ∈ g'.patches := by
  obtain ⟨hcovers, hpatches⟩ := gather_patches h
  rw [hpatches]
  refine Patch.mem_insertAll_of_agree hmem fun added hadded hstart => ?_
  obtain ⟨hdecorated, other, hother, rfl⟩ := mem_addedPatches.mp hadded
  obtain ⟨hle, -⟩ := covers_iff.mp (hcovers hdecorated other hother)
  -- a patch added at the start is for this very node, so it is the one that the node stands for
  have hsame : other = node := by
    refine hseparate other node (.of_mem hbody hreference hdecorated hother) hmarked ?_
    rw [hstands.start, ← hstart]
    exact (Nat.add_sub_of_le hle).symm
  subst hsame
  obtain ⟨-, halike⟩ := (mem_occurrences hbody).mp hother
  exact (stands_of_mem hbody h hdecorated (halike.2 ▸ hnamed) hother).unique hstands

/-- One more reference keeps it so. -/
theorem Placed.gather (hplaced : Placed body earlier g) (hbody : Node.ofFields? body.fields = some body)
    (hseparate : Separate body references) (hearlier : ∀ other ∈ earlier, other ∈ references)
    (hreference : reference ∈ references) (h : Extraction.gather body source g reference = .ok g') :
    Placed body (earlier ++ [reference]) g' := by
  refine ⟨?_, fun other hother hdecorated hnamed node hnode => ?_⟩
  · rw [(gather_patches h).2]
    exact hplaced.ordered.insertAll _
  obtain ⟨-, halike⟩ := (mem_occurrences hbody).mp hnode
  have hnodeNamed : node.innerName? ≠ none := halike.2 ▸ hnamed
  rcases List.mem_append.mp hother with hold | hnew
  · obtain ⟨patch, hpatch, hstands⟩ := hplaced.placed other hold hdecorated hnamed node hnode
    obtain ⟨added, hadded⟩ := gather_bound_append h
    have hstands' : Stands g'.bound body.span.start node patch := hadded ▸ hstands.append added
    exact ⟨patch, mem_patches_of_stands hbody hseparate hreference h
      (.of_mem hbody (hearlier other hold) hdecorated hnode) hnodeNamed hstands' (.inr hpatch), hstands'⟩
  · obtain rfl := List.mem_singleton.mp hnew
    have hstands := stands_of_mem hbody h hdecorated hnamed hnode
    exact ⟨_, mem_patches_of_stands hbody hseparate hreference h
      (.of_mem hbody hreference hdecorated hnode) hnodeNamed hstands
      (.inl (mem_addedPatches.mpr ⟨hdecorated, node, hnode, rfl⟩)), hstands⟩

/-- So do all of them. -/
theorem placed_of_foldlM (hbody : Node.ofFields? body.fields = some body)
    (hseparate : Separate body references)
    (h : references.foldlM (Extraction.gather body source) {} = .ok g) : Placed body references g := by
  suffices hprefix : (∀ other ∈ references, other ∈ references) ∧ Placed body references g from hprefix.2
  refine foldlM_prefix_invariant (P := fun earlier g => (∀ other ∈ earlier, other ∈ references) ∧
    Placed body earlier g) ?_ ⟨List.forall_mem_nil _, placed_empty body⟩ h
  rintro reference hreference earlier before after ⟨hearlier, hplaced⟩ hok
  refine ⟨?_, hplaced.gather hbody hseparate hearlier hreference hok⟩
  rw [List.forall_mem_append]
  exact ⟨hearlier, List.forall_mem_singleton.mpr hreference⟩

/-- Each patch is the one for a marked node, if every view and mutable referred to has a name. -/
theorem stems_of_foldlM (hbody : Node.ofFields? body.fields = some body)
    (hnamed : ∀ reference ∈ references, Decorated reference → reference.innerName? ≠ none)
    (h : references.foldlM (Extraction.gather body source) {} = .ok g) :
    ∀ patch ∈ g.patches, ∃ node, Marked body references node ∧ Stands g.bound body.span.start node patch := by
  refine foldlM_invariant (P := fun g : Gathered => ∀ patch ∈ g.patches, ∃ node,
    Marked body references node ∧ Stands g.bound body.span.start node patch) ?_ (List.forall_mem_nil _) h
  intro reference hreference before after hbefore hok patch hpatch
  rw [(gather_patches hok).2] at hpatch
  rcases Patch.mem_insertAll hpatch with hadded | hold
  · obtain ⟨hdecorated, node, hnode, rfl⟩ := mem_addedPatches.mp hadded
    exact ⟨node, .of_mem hbody hreference hdecorated hnode,
      stands_of_mem hbody hok hdecorated (hnamed reference hreference hdecorated) hnode⟩
  · obtain ⟨node, hmarked, hstands⟩ := hbefore patch hold
    obtain ⟨added, hadded⟩ := gather_bound_append hok
    exact ⟨node, hmarked, hadded ▸ hstands.append added⟩

end

/-! ## The cell -/

/-- The names and the parameters side by side are what was bound. -/
theorem zip_map_fst_snd (bound : List (String × String)) :
    (bound.map Prod.fst).zip (bound.map Prod.snd) = bound := by
  rw [List.zip_map']
  exact List.map_id bound

/-- The cell that is extracted from what was gathered. -/
def Gathered.extracted (p : ParsedCell) (body : Node) (source : List Char) (g : Gathered) : Extracted where
  references := g.bound.map Prod.fst
  parameters := g.bound.map Prod.snd
  code := (intended p (g.bound.map Prod.snd) body.kind
    ((Patch.applyAll? source g.patches).getD source)).render
  constants := collectConstants body

section

variable {p : ParsedCell} {body : Node} {source : List Char}

/-- A cell with a body is extracted from what is gathered of its references. -/
theorem extract_eq_map (hbody : p.body = .ok body) (hsource : p.text body = .ok source) :
    extract p = (p.references.foldlM (gather body source) {}).map (Gathered.extracted p body source) := by
  rw [extract, hbody]
  simp only [bind, Except.bind, hsource]
  cases p.references.foldlM (gather body source) {} with
  | error error => rfl
  | ok g => rw [Except.map, Gathered.extracted, intended_eq]; rfl

/-- Such a cell is refused for a marked node without a text in the body, and for nothing else. -/
theorem extract_outcome (hbody : p.body = .ok body) (hsource : p.text body = .ok source) :
    (∃ node, Marked body p.references node ∧ ¬ Covers body.span.start source node.span ∧
      extract p = .error (.tree .occurrenceOutsideBody (some node.span))) ∨
    (∀ node, Marked body p.references node → Covers body.span.start source node.span) ∧
      ∃ e, extract p = .ok e := by
  rw [extract_eq_map hbody hsource]
  rcases foldlM_gather_outcome source (ofFields?_of_body hbody) p.references {} with
    ⟨node, hmarked, hout, herror⟩ | ⟨hall, g, hg⟩
  · refine .inl ⟨node, hmarked, hout, ?_⟩
    rw [herror]
    rfl
  · refine .inr ⟨hall, g.extracted p body source, ?_⟩
    rw [hg]
    rfl

end

end CellGraph.Extraction
