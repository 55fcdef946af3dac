import CellGraph.Proofs.Extraction.Occurrences

/-!
# The rewritten body

The body of a cell's function is the body that was written, with each marked node replaced by the parameter
that it is read from. Gathering leaves one patch for each marked node, in the order of their starts
(`exists_marked_nodes`), and applying them splices the body's text (`patches_splice`).
-/

namespace CellGraph.Extraction

open Ast Text

section

variable {body : Node} {source : List Char} {references : List Node} {g : Gathered}

/-- The marked nodes in the order of their patches. -/
theorem exists_marked_nodes (hbody : Node.ofFields? body.fields = some body)
    (hnamed : ∀ reference ∈ references, Decorated reference → reference.innerName? ≠ none)
    (hseparate : Separate body references) (h : references.foldlM (gather body source) {} = .ok g) :
    ∃ nodes, (∀ node, node ∈ nodes ↔ Marked body references node) ∧
      nodes.Pairwise (·.span.start < ·.span.start) ∧
      List.Forall₂ (Stands g.bound body.span.start) nodes g.patches := by
  have hplaced := placed_of_foldlM hbody hseparate h
  have hstems := stems_of_foldlM hbody hnamed h
  have : Nonempty Node := ⟨body⟩
  choose! nodeOf hmarked hstands using hstems
  refine ⟨g.patches.map nodeOf, fun node => ⟨fun hmem => ?_, fun hnode => ?_⟩, ?_, ?_⟩
  · obtain ⟨patch, hpatch, rfl⟩ := List.mem_map.mp hmem
    exact hmarked patch hpatch
  · obtain ⟨reference, hreference, halike⟩ := hnode.2.2
    have hdecorated := halike.decorated_iff.mp hnode.2.1
    obtain ⟨patch, hpatch, hpatchStands⟩ := hplaced.placed reference hreference hdecorated
      (hnamed reference hreference hdecorated) node ((mem_occurrences hbody).mpr ⟨hnode.1, halike⟩)
    have hsame : nodeOf patch = node :=
      hseparate _ _ (hmarked patch hpatch) hnode
        ((hstands patch hpatch).start.trans hpatchStands.start.symm)
    exact List.mem_map.mpr ⟨patch, hpatch, hsame⟩
  · rw [List.pairwise_map]
    refine hplaced.ordered.imp_of_mem fun {a b} ha hb hlt => ?_
    rw [(hstands a ha).start, (hstands b hb).start]
    exact Nat.add_lt_add_left hlt _
  · rw [List.forall₂_map_left_iff, List.forall₂_same]
    exact hstands

/-- The patches are applied one behind the other if no marked node begins inside another. -/
theorem patches_splice (hbody : Node.ofFields? body.fields = some body)
    (hnamed : ∀ reference ∈ references, Decorated reference → reference.innerName? ≠ none)
    (hseparate : Separate body references)
    (houtside : ∀ a b, Marked body references a → Marked body references b →
      ¬ (a.span.start < b.span.start ∧ b.span.start < a.span.stop))
    (h : references.foldlM (gather body source) {} = .ok g) :
    ∃ rewritten, Patch.applyAll? source g.patches = some rewritten ∧
      Patch.Splices 0 g.patches source rewritten := by
  have hplaced := placed_of_foldlM hbody hseparate h
  have hstems := stems_of_foldlM hbody hnamed h
  have hfits : ∀ patch ∈ g.patches, patch.Fits source := by
    intro patch hpatch
    obtain ⟨node, hmarked, hstands⟩ := hstems patch hpatch
    rcases foldlM_gather_outcome source hbody references {} with ⟨_, -, -, herror⟩ | ⟨hcovers, -⟩
    · rw [herror] at h
      cases h
    · obtain ⟨-, -, hslice⟩ := covers_iff.mp (hcovers node hmarked)
      rwa [hstands.start, hstands.stop, Nat.add_sub_cancel_left, Nat.add_sub_cancel_left] at hslice
  obtain ⟨rewritten, happly, hsplices⟩ := Patch.exists_applyAll?_splices hfits
  refine ⟨rewritten, happly, ?_⟩
  rwa [Patch.selected_eq_self (fun _ _ => Nat.zero_le _) ?_] at hsplices
  refine hplaced.ordered.imp_of_mem fun {a b} ha hb hlt => ?_
  obtain ⟨node, hmarked, hstands⟩ := hstems a ha
  obtain ⟨other, hother, hstands'⟩ := hstems b hb
  have hapart := houtside node other hmarked hother
  rw [hstands.start, hstands.stop, hstands'.start] at hapart
  omega

end

/-! ## The text of a cell's function -/

/-- What a cell's function begins with, up to its body. -/
def header (p : ParsedCell) (parameters : List String) : List Char :=
  (if p.cell.isAsync then "async ".toList else []) ++ "function".toList ++
    (if p.cell.isGenerator then "*".toList else []) ++ " ".toList ++
    ((p.id?.bind canonicalName?).elim "" functionName).toList ++
    "(".toList ++ [','].intercalate (parameters.map String.toList) ++ ") ".toList

theorem joinWith_eq_intercalate (separator : List Char) (parts : List (List Char)) :
    joinWith separator parts = separator.intercalate parts := by
  induction parts with
  | nil => rfl
  | cons part parts ih =>
      cases parts with
      | nil => simp [joinWith, List.intercalate]
      | cons next parts =>
          rw [joinWith, ih, List.intercalate_cons_cons, List.append_assoc]
          exact List.cons_ne_nil next parts

theorem toList_render_intended (p : ParsedCell) (parameters : List String) (kind : Kind)
    (text : List Char) :
    (intended p parameters kind text).render.toList = header p parameters ++ bodyText kind text := by
  rw [FunctionText.render, String.toList_ofList, FunctionText.renderChars_eq, intended,
    joinWith_eq_intercalate, header, String.toList_ofList]
  cases p.cell.isAsync <;> cases p.cell.isGenerator <;>
    simp [FunctionKind.of, FunctionKind.opening, FunctionKind.asyncWord, FunctionKind.functionWord]

/-- A cell with a body whose views and mutables are referred to by name is refused just if one of the marked
nodes has no text in the body, and the error has the range of such a node. Otherwise the body is rewritten: each
marked node is replaced, by the parameter bound to its canonical name and for a mutable by the value of that, and
everything else is kept; this if no two marked nodes start at one place and none begins inside another. The
cell's code is its header with the rewritten body behind it, which is put into a block if it is none. -/
theorem marked_nodes_rewritten (p : ParsedCell) (body : Node) (source : List Char)
    (hbody : p.body = .ok body) (hsource : p.text body = .ok source)
    (hnamed : ∀ reference ∈ p.references, Decorated reference → reference.innerName? ≠ none) :
    ((∃ span, extract p = .error (.tree .occurrenceOutsideBody (some span))) ↔
      ∃ node, Marked body p.references node ∧ ¬ Covers body.span.start source node.span) ∧
    (∀ error, extract p = .error error → ∃ node, Marked body p.references node ∧
      ¬ Covers body.span.start source node.span ∧
      error = .tree .occurrenceOutsideBody (some node.span)) ∧
    (∀ e, extract p = .ok e → Separate body p.references →
      (∀ a b, Marked body p.references a → Marked body p.references b →
        ¬ (a.span.start < b.span.start ∧ b.span.start < a.span.stop)) →
      ∃ nodes patches rewritten,
        (∀ node, node ∈ nodes ↔ Marked body p.references node) ∧
        nodes.Pairwise (·.span.start < ·.span.start) ∧
        List.Forall₂ (Stands (e.references.zip e.parameters) body.span.start) nodes patches ∧
        Patch.Splices 0 patches source rewritten ∧
        (body.kind = .blockStatement → e.code.toList = header p e.parameters ++ rewritten) ∧
        (body.kind ≠ .blockStatement → e.code.toList =
          header p e.parameters ++ ("\x7b\nreturn (".toList ++ rewritten ++ ");\n\x7d".toList))) := by
  refine ⟨⟨?_, ?_⟩, ?_, ?_⟩
  · rintro ⟨span, herror⟩
    rcases extract_outcome hbody hsource with ⟨node, hmarked, hout, -⟩ | ⟨-, e, hok⟩
    · exact ⟨node, hmarked, hout⟩
    · rw [herror] at hok
      cases hok
  · rintro ⟨node, hmarked, hout⟩
    rcases extract_outcome hbody hsource with ⟨other, -, -, herror⟩ | ⟨hcovers, -⟩
    · exact ⟨other.span, herror⟩
    · exact absurd (hcovers node hmarked) hout
  · intro error herror
    rcases extract_outcome hbody hsource with ⟨node, hmarked, hout, herror'⟩ | ⟨-, e, hok⟩
    · exact ⟨node, hmarked, hout, Except.error.inj (herror.symm.trans herror')⟩
    · rw [herror] at hok
      cases hok
  · intro e hextract hseparate houtside
    obtain ⟨body', source', g, hbody', hsource', hg, hreferences, hparameters, hcode⟩ :=
      extract_eq_ok hextract
    obtain rfl := Except.ok.inj (hbody.symm.trans hbody')
    obtain rfl := Except.ok.inj (hsource.symm.trans hsource')
    have hfields := ofFields?_of_body hbody
    obtain ⟨nodes, hnodes, hordered, hstands⟩ := exists_marked_nodes hfields hnamed hseparate hg
    obtain ⟨rewritten, happly, hsplices⟩ := patches_splice hfields hnamed hseparate houtside hg
    rw [happly, Option.getD_some] at hcode
    refine ⟨nodes, g.patches, rewritten, hnodes, hordered, ?_, hsplices, fun hblock => ?_, fun hexpression => ?_⟩
    · rwa [hreferences, hparameters, zip_map_fst_snd]
    · rw [hcode, toList_render_intended, bodyText, if_pos hblock]
    · rw [hcode, toList_render_intended, bodyText, if_neg hexpression]

/-- Characters of two bytes before and inside the marked nodes, a mutable that is found before a view which
stands in front of it, and the view referred to twice: in an expression and in a block. -/
theorem marked_nodes_rewritten_unsorted :
    let node (type : String) (start stop : Nat) (others : List (String × Json)) : Json :=
      .object (("type", .string type) :: ("start", .ofNat start) :: ("end", .ofNat stop) :: others)
    let named (name : String) : Json := node "Identifier" 0 0 [("name", .string name)]
    let counter (start : Nat) := node "MutableExpression" start (start + 9) [("id", named "n")]
    let plain (start : Nat) := node "Identifier" start (start + 2) [("name", .string "é")]
    let rate (start : Nat) := node "ViewExpression" start (start + 9) [("id", named "ü")]
    let body (type : String) (stop : Nat) (plain rate counter : Json) : Node := {
      typeName := type
      fields := [("type", .string type), ("start", .ofNat 4), ("end", .ofNat stop),
        ("factors", .array [counter, rate]), ("left", plain)] }
    let cell (text : String) (body : Node) (plain rate counter : Json) : ParsedCell := {
      input := "y = " ++ text
      cell := {
        id := some (named "y")
        body := .object body.fields
        references := [counter, plain, rate, rate]
        isAsync := false
        isGenerator := false } }
    let rewrites (p : ParsedCell) (body : Node) (source rewritten opening closing : String) : Prop :=
      ∃ e nodes patches, extract p = .ok e ∧
        (∀ node, node ∈ nodes ↔ Marked body p.references node) ∧
        List.Forall₂ (Stands (e.references.zip e.parameters) 4) nodes patches ∧
        Patch.Splices 0 patches source.toList rewritten.toList ∧
        e.code = "function y($0,é,$1) " ++ opening ++ rewritten ++ closing
    let product := body "BinaryExpression" 30 (plain 4) (rate 9) (counter 21)
    let block := body "BlockStatement" 38 (plain 5) (rate 16) (counter 28)
    rewrites (cell "é + viewof ü * mutable n" product (plain 4) (rate 9) (counter 21)) product
      "é + viewof ü * mutable n" "é + $1 * $0.value" "\x7b\nreturn (" ");\n\x7d" ∧
    rewrites (cell "\x7bé; return viewof ü * mutable n\x7d" block (plain 5) (rate 16) (counter 28)) block
      "\x7bé; return viewof ü * mutable n\x7d" "\x7bé; return $1 * $0.value\x7d" "" "" := by
  intro node named counter plain rate body cell rewrites product block
  let front := "function y($0,é,$1) "
  let parameters := ["$0", "é", "$1"]
  -- what the theorem asks of a cell, as facts that can be computed
  have hrewrites (p : ParsedCell) (body : Node) (source rewritten opening closing : String)
      (hbody : p.body = .ok body) (hsource : (p.text body).toOption = some source.toList)
      (hnamed : ∀ reference ∈ p.references, Decorated reference → reference.innerName? ≠ none)
      (hstarts : ((body.walk.filter (Decorated ·)).map (·.span.start)).Nodup)
      (houtside : ∀ a ∈ body.walk, ∀ b ∈ body.walk, Decorated a → Decorated b →
        ¬ (a.span.start < b.span.start ∧ b.span.start < a.span.stop))
      (hstart : body.span.start = 4)
      (hcell : (extract p).toOption.map (fun e => (e.code, e.parameters)) =
        some (front ++ opening ++ rewritten ++ closing, parameters))
      (hheader : header p parameters = front.toList)
      (hopening : opening.toList = if body.kind = .blockStatement then [] else "\x7b\nreturn (".toList)
      (hclosing : closing.toList = if body.kind = .blockStatement then [] else ");\n\x7d".toList) :
      rewrites p body source rewritten opening closing := by
    rcases htext : p.text body with error | text
    · rw [htext] at hsource
      cases hsource
    rw [htext] at hsource
    obtain rfl := Option.some.inj hsource
    rcases he : extract p with error | e
    · rw [he] at hcell
      cases hcell
    rw [he] at hcell
    obtain ⟨hcode, hparameters⟩ := Prod.mk.inj (Option.some.inj hcell)
    have hfields := ofFields?_of_body hbody
    obtain ⟨nodes, patches, text, hnodes, -, hstands, hsplices, hblock, hexpression⟩ :=
      (marked_nodes_rewritten p body _ hbody htext hnamed).2.2 e he
        ((startsApart_of_nodup hfields hstarts).separate _) fun a b ha hb =>
          houtside a ((Node.mem_walk_iff hfields).mpr ha.1) b ((Node.mem_walk_iff hfields).mpr hb.1)
            ha.2.1 hb.2.1
    rw [hcode, hparameters, hheader] at hblock hexpression
    simp only [String.toList_append, List.append_assoc, List.append_cancel_left_eq] at hblock hexpression
    have hrewritten : text = rewritten.toList := by
      by_cases hkind : body.kind = .blockStatement
      · simpa [hopening, hclosing, hkind] using (hblock hkind).symm
      · simpa [hopening, hclosing, hkind] using (hexpression hkind).symm
    exact ⟨e, nodes, patches, he, hnodes, hstart ▸ hstands, hrewritten ▸ hsplices, hcode⟩
  constructor
  · refine hrewrites _ product _ _ _ _ rfl ?_ ?_ ?_ ?_ rfl ?_ ?_ ?_ ?_ <;> decide +kernel
  · refine hrewrites _ block _ _ _ _ rfl ?_ ?_ ?_ ?_ rfl ?_ ?_ ?_ ?_ <;> decide +kernel

end CellGraph.Extraction
