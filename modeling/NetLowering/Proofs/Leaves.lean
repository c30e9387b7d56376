import Mathlib
import NetLowering.Proofs.Requirements

/-! # Leaves

The readers whose expectations a node has to meet are its leaves: the ordinary nodes that are reached from
it through transparent ones. Propagation never collects them. At each node it compares only the first
requirement that each transparent reader hands on, so a disagreement further down is not seen there; it is
seen at the transparent node where it arises, because every node is visited. Hence strict propagation
refuses a model iff two leaves of one node disagree, and otherwise every node writes what all its leaves
expect (`strict_propagate_iff_leaves`).

Neither the leaves nor the loops of a node depend on the order in which its readers are met. -/

namespace NetLowering

namespace Model

variable {m : Model} {n t leaf : Node} {required : List Padding}

/-- A transparent reader: what its own readers require, it requires. -/
def Relays (m : Model) (n t : Node) : Prop := t ∈ m.readers n ∧ t.kind.isTransparent = true

/-- An ordinary reader that is reached through transparent ones. -/
inductive Leaf (m : Model) : Node → Node → Prop
  | reader {n leaf : Node} : leaf ∈ m.readers n → leaf.kind ≠ .skip → leaf.kind.isTransparent = false →
      Leaf m n leaf
  | through {n t leaf : Node} : m.Relays n t → Leaf m t leaf → Leaf m n leaf

/-- Transparent readers lead from the node to one that leads back to itself. -/
def Loops (m : Model) (n : Node) : Prop :=
  ∃ t, Relation.TransGen m.Relays n t ∧ Relation.TransGen m.Relays t t

/-! ### Loops -/

theorem not_loops_of_relays (h : ∀ t, m.Relays n t → ¬m.Loops t) : ¬m.Loops n := by
  rintro ⟨u, hnu, huu⟩
  obtain ⟨t, hnt, htu⟩ := Relation.TransGen.head'_iff.mp hnu
  rcases Relation.reflTransGen_iff_eq_or_transGen.mp htu with rfl | htu
  · exact h u hnt ⟨u, huu, huu⟩
  · exact h t hnt ⟨u, htu, huu⟩

/-- If no loop is reached from a node, there is always a far end to what is reached. -/
theorem relays_wellFounded (h : ¬m.Loops n) :
    WellFounded fun b a : {k : Node // k ∈ m.nodes ∧ Relation.TransGen m.Relays n k} =>
      Relation.TransGen m.Relays a.1 b.1 := by
  have hfinite : Finite {k : Node // k ∈ m.nodes ∧ Relation.TransGen m.Relays n k} :=
    Set.Finite.subset (List.finite_toSet m.nodes) fun k hk => hk.1
  have htrans : IsTrans {k : Node // k ∈ m.nodes ∧ Relation.TransGen m.Relays n k}
      fun b a => Relation.TransGen m.Relays a.1 b.1 := ⟨fun _ _ _ hba hcb => hcb.trans hba⟩
  have hirrefl : Std.Irrefl fun b a : {k : Node // k ∈ m.nodes ∧ Relation.TransGen m.Relays n k} =>
      Relation.TransGen m.Relays a.1 b.1 := ⟨fun a ha => h ⟨a.1, a.2.2, ha⟩⟩
  exact Finite.wellFounded_of_trans_of_irrefl _

/-- So the requirements can be collected from the far end on. -/
theorem requirements_ne_none_of_not_loops (hm : m.Consistent) (hn : n ∈ m.nodes) (h : ¬m.Loops n) :
    m.requirements n ≠ none := by
  have hreached : ∀ k : {k : Node // k ∈ m.nodes ∧ Relation.TransGen m.Relays n k},
      m.requirements k.1 ≠ none := by
    intro k
    induction k using (relays_wellFounded h).induction with
    | _ k ih =>
        refine (requirements_ne_none_iff hm k.2.1).mpr fun r hr hrt => ?_
        exact ih ⟨r, mem_nodes_of_mem_readers hr, k.2.2.tail ⟨hr, hrt⟩⟩ (.single ⟨hr, hrt⟩)
  refine (requirements_ne_none_iff hm hn).mpr fun r hr hrt => ?_
  exact hreached ⟨r, mem_nodes_of_mem_readers hr, .single ⟨hr, hrt⟩⟩

theorem requirements_eq_none_iff (hm : m.Consistent) (hn : n ∈ m.nodes) :
    m.requirements n = none ↔ m.Loops n := by
  constructor
  · intro hnone
    by_contra h
    exact requirements_ne_none_of_not_loops hm hn h hnone
  · intro hloops
    by_contra h
    exact requirements_induct (P := fun k => ¬m.Loops k)
      (fun k _ _ hrelays => not_loops_of_relays fun t ht => hrelays t ht.1 ht.2) n hn h hloops

/-! ### Leaves -/

theorem Leaf.mem_nodes (hleaf : m.Leaf n leaf) : leaf ∈ m.nodes := by
  induction hleaf with
  | reader hr _ _ => exact mem_nodes_of_mem_readers hr
  | through _ _ ih => exact ih

theorem exists_leaf_of_mem_requirementsOf {fresh : List String} {readers : List Node} {q : Padding}
    (h : m.requirementsOf fresh readers = some required) (hq : q ∈ required)
    (hsub : ∀ r ∈ readers, r ∈ m.readers n) : ∃ leaf, m.Leaf n leaf ∧ leaf.inputPadding = q := by
  fun_induction Model.requirementsOf m fresh readers generalizing n required with
  | case1 => cases h; cases hq
  | case2 fresh reader rest hskip ih =>
      exact ih h hq fun r hr => hsub r (List.mem_cons_of_mem _ hr)
  | case3 => cases h
  | case4 fresh reader rest hskip htrans _ forwarded hforwarded ihforward ihrest =>
      obtain ⟨later, hlater, rfl⟩ := Option.map_eq_some_iff.mp h
      rcases List.mem_append.mp hq with hq | hq
      · have hfirst : q ∈ forwarded := List.mem_of_mem_head? (Option.mem_toList.mp hq)
        obtain ⟨leaf, hleaf, hpad⟩ := ihforward hforwarded hfirst fun _ hr => hr
        exact ⟨leaf, .through ⟨hsub reader List.mem_cons_self, htrans⟩ hleaf, hpad⟩
      · exact ihrest hlater hq fun r hr => hsub r (List.mem_cons_of_mem _ hr)
  | case5 => cases h
  | case6 fresh reader rest hskip htrans ih =>
      obtain ⟨later, hlater, rfl⟩ := Option.map_eq_some_iff.mp h
      rcases List.mem_cons.mp hq with rfl | hq
      · have hopaque : reader.kind.isTransparent = false := Bool.eq_false_iff.mpr htrans
        exact ⟨reader, .reader (hsub reader List.mem_cons_self) hskip hopaque, rfl⟩
      · exact ih hlater hq fun r hr => hsub r (List.mem_cons_of_mem _ hr)

theorem exists_leaf_of_mem_requirements {q : Padding} (h : m.requirements n = some required)
    (hq : q ∈ required) : ∃ leaf, m.Leaf n leaf ∧ leaf.inputPadding = q :=
  exists_leaf_of_mem_requirementsOf h hq fun _ hr => hr

/-- What a leaf expects comes up to the node, unless readers on the way disagree. -/
theorem Leaf.inputPadding_mem (hleaf : m.Leaf n leaf) (hagree : ∀ k ∈ m.nodes, m.conflict? k = none)
    (h : m.requirements n = some required) : leaf.inputPadding ∈ required := by
  induction hleaf generalizing required with
  | reader hr hskip hopaque => exact inputPadding_mem_requirementsOf h hr hskip hopaque
  | @through n t leaf hrelay _ ih =>
      obtain ⟨forwarded, hforwarded, hhead⟩ := head_mem_requirements h hrelay.1 hrelay.2
      have hmem := ih hforwarded
      have hsame := conflict?_eq_none_iff.mp (hagree t (mem_nodes_of_mem_readers hrelay.1)) _ hforwarded
      obtain ⟨first, rest, rfl⟩ := List.exists_cons_of_ne_nil (List.ne_nil_of_mem hmem)
      rw [eq_head_of_firstDifference?_eq_none hsame _ hmem]
      exact hhead first rfl

/-- Propagation meets no disagreement iff no two leaves of a node disagree. -/
theorem conflict?_eq_none_iff_leaves (hm : m.Consistent) :
    (∀ n ∈ m.nodes, m.conflict? n = none) ↔
      ∀ n ∈ m.nodes, ¬m.Loops n → ∀ a b, m.Leaf n a → m.Leaf n b → a.inputPadding = b.inputPadding := by
  constructor
  · intro hagree n hn hloops a b ha hb
    obtain ⟨required, hreq⟩ :=
      Option.ne_none_iff_exists'.mp (requirements_ne_none_of_not_loops hm hn hloops)
    have hsame := eq_head_of_firstDifference?_eq_none
      (conflict?_eq_none_iff.mp (hagree n hn) required hreq)
    rw [hsame _ (ha.inputPadding_mem hagree hreq), hsame _ (hb.inputPadding_mem hagree hreq)]
  · intro hleaves n hn
    refine conflict?_eq_none_iff.mpr fun required hreq => ?_
    have hloops : ¬m.Loops n := by
      rw [← requirements_eq_none_iff hm hn, hreq]
      exact Option.some_ne_none _
    cases required with
    | nil => rfl
    | cons first rest =>
        obtain ⟨a, ha, hfirst⟩ := exists_leaf_of_mem_requirements hreq List.mem_cons_self
        unfold firstDifference?
        rw [Option.map_eq_none_iff, List.find?_eq_none]
        intro q hq
        obtain ⟨b, hb, hother⟩ := exists_leaf_of_mem_requirements hreq (List.mem_cons_of_mem _ hq)
        have hsame := hleaves n hn hloops b a hb ha
        simp [← hfirst, ← hother, hsame]

theorem Leaf.outputPadding_eq (hm : m.Consistent) (hn : n ∈ m.nodes) (hleaf : m.Leaf n leaf)
    (hagree : ∀ k ∈ m.nodes, m.conflict? k = none) (hloops : ¬m.Loops n) :
    m.propagation.outputPadding n.id = leaf.inputPadding := by
  obtain ⟨required, hreq⟩ :=
    Option.ne_none_iff_exists'.mp (requirements_ne_none_of_not_loops hm hn hloops)
  rw [outputPadding_propagation hm hn hreq]
  have hsame := eq_head_of_firstDifference?_eq_none (conflict?_eq_none_iff.mp (hagree n hn) required hreq)
  exact (hsame _ (hleaf.inputPadding_mem hagree hreq)).symm

theorem outputPadding_eq_absent (hm : m.Consistent) (hn : n ∈ m.nodes) (hloops : ¬m.Loops n)
    (hnone : ∀ leaf, ¬m.Leaf n leaf) : m.propagation.outputPadding n.id = .absent := by
  obtain ⟨required, hreq⟩ :=
    Option.ne_none_iff_exists'.mp (requirements_ne_none_of_not_loops hm hn hloops)
  rw [outputPadding_propagation hm hn hreq]
  cases required with
  | nil => rfl
  | cons first rest =>
      obtain ⟨leaf, hleaf, _⟩ := exists_leaf_of_mem_requirements hreq List.mem_cons_self
      exact absurd hleaf (hnone leaf)

theorem isCyclic_iff (hm : m.Consistent) (hn : n ∈ m.nodes) :
    m.propagation.isCyclic n.id = true ↔ m.Loops n := by
  rw [isCyclic_propagation hm hn, Option.isNone_iff_eq_none, requirements_eq_none_iff hm hn]

theorem isCyclic_eq_false_iff (hm : m.Consistent) (hn : n ∈ m.nodes) :
    m.propagation.isCyclic n.id = false ↔ ¬m.Loops n := by
  rw [← isCyclic_iff hm hn, Bool.not_eq_true]

end Model

/-- Strict propagation fails, for an ambiguous padding, iff two leaves of a node that is not cyclic expect
different paddings. When it succeeds its result is that of the lenient pass, and every node that is not
cyclic writes what all its leaves expect. A node is cyclic iff transparent readers lead from it into a
loop. -/
theorem strict_propagate_iff_leaves (m : Model) (hm : m.Reachable) :
    ∃ loose, propagate false m = .ok loose ∧ (∀ n ∈ m.nodes, loose.isCyclic n.id = true ↔ m.Loops n) ∧
      ((∃ e, propagate true m = .error e ∧ ∃ first other, e.cause = .ambiguousPadding first other) ↔
        ∃ n ∈ m.nodes, loose.isCyclic n.id = false ∧
          ∃ a b, m.Leaf n a ∧ m.Leaf n b ∧ a.inputPadding ≠ b.inputPadding) ∧
      ∀ strict, propagate true m = .ok strict →
        strict.output = loose.output ∧ strict.cyclic = loose.cyclic ∧ strict.dropped = loose.dropped ∧
        ∀ n ∈ m.nodes, strict.isCyclic n.id = false →
          (∀ leaf, m.Leaf n leaf → strict.outputPadding n.id = leaf.inputPadding) ∧
          ((∀ leaf, ¬m.Leaf n leaf) → strict.outputPadding n.id = .absent) := by
  have hcons := hm.consistent
  refine ⟨m.propagation, propagate_eq_ok_iff.mpr ⟨nofun, rfl⟩, fun n hn => Model.isCyclic_iff hcons hn,
    ?_, ?_⟩
  · constructor
    · rintro ⟨e, herror, _⟩
      by_contra hno
      have hagree : ∀ n ∈ m.nodes, m.conflict? n = none := by
        refine (Model.conflict?_eq_none_iff_leaves hcons).mpr fun n hn hloops a b ha hb => ?_
        by_contra hne
        exact hno ⟨n, hn, (Model.isCyclic_eq_false_iff hcons hn).mpr hloops, a, b, ha, hb, hne⟩
      rw [propagate_eq_ok_iff.mpr ⟨fun _ => hagree, rfl⟩] at herror
      cases herror
    · rintro ⟨n, hn, hcyclic, a, b, ha, hb, hne⟩
      cases hstrict : propagate true m with
      | error e => exact ⟨e, rfl, propagate_eq_error hstrict⟩
      | ok p =>
          have hagree := (propagate_eq_ok_iff.mp hstrict).1 rfl
          have hloops := (Model.isCyclic_eq_false_iff hcons hn).mp hcyclic
          exact absurd ((Model.conflict?_eq_none_iff_leaves hcons).mp hagree n hn hloops a b ha hb) hne
  · intro strict hstrict
    obtain ⟨hagree, rfl⟩ := propagate_eq_ok_iff.mp hstrict
    refine ⟨rfl, rfl, rfl, fun n hn hcyclic => ?_⟩
    have hloops := (Model.isCyclic_eq_false_iff hcons hn).mp hcyclic
    exact ⟨fun leaf hleaf => hleaf.outputPadding_eq hcons hn (hagree rfl) hloops,
      Model.outputPadding_eq_absent hcons hn hloops⟩

/-! ### A disagreement that is not seen at the source -/

/-- Two readers of one value that do not expect the same, both behind transparent nodes. -/
def forkedImage : List Node :=
  [{ id := "image", kind := .input, outputs := ["x"],
     outputShapes := [⟨[4, 4, 3], .rowColumnChannel⟩] },
   { id := "alias", kind := .passthrough, inputs := ["x"], outputs := ["y"] },
   { id := "joined", kind := .splice, inputs := ["y"], outputs := ["z"] },
   { id := "wide", kind := .relu, inputs := ["z"], outputs := ["a"], inputPadding := ⟨1, .min⟩ },
   { id := "narrow", kind := .relu, inputs := ["y"], outputs := ["b"] }]

theorem strict_propagate_forkedImage : (Model.mk forkedImage []).Reachable ∧
    ∃ e, propagate true ⟨forkedImage, []⟩ = .error e ∧
      ∃ first other, e.cause = .ambiguousPadding first other := by
  have hreach : (Model.mk forkedImage []).Reachable :=
    Model.reachable_of_consistent ⟨by decide, by decide, by decide, by decide⟩
  refine ⟨hreach, ?_⟩
  obtain ⟨loose, hloose, _, hambiguous, _⟩ := strict_propagate_iff_leaves ⟨forkedImage, []⟩ hreach
  have hreads (i j : Fin 5) (x : String) (hi : forkedImage[i].outputs = [x])
      (hj : x ∈ forkedImage[j].inputs) : forkedImage[j] ∈ (Model.mk forkedImage []).readers forkedImage[i] :=
    Model.mem_readers_of_outputs hi (List.getElem_mem _) hj
  have halias : (Model.mk forkedImage []).Relays forkedImage[0] forkedImage[1] :=
    ⟨hreads 0 1 "x" rfl (by decide), rfl⟩
  have hjoined : (Model.mk forkedImage []).Relays forkedImage[1] forkedImage[2] :=
    ⟨hreads 1 2 "y" rfl (by decide), rfl⟩
  have hwide : (Model.mk forkedImage []).Leaf forkedImage[2] forkedImage[3] :=
    .reader (hreads 2 3 "z" rfl (by decide)) nofun rfl
  have hnarrow : (Model.mk forkedImage []).Leaf forkedImage[1] forkedImage[4] :=
    .reader (hreads 1 4 "y" rfl (by decide)) nofun rfl
  refine hambiguous.mpr ⟨forkedImage[0], List.getElem_mem _, ?_, _, _,
    .through halias (.through hjoined hwide), .through halias hnarrow, by decide⟩
  obtain ⟨_, rfl⟩ := propagate_eq_ok_iff.mp hloose
  cbv

end NetLowering
