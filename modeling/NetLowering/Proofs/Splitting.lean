import NetLowering.Proofs.Requirements

/-! # Nodes split in two

`Model.Splits` describes a model in which one node `c` of another is replaced, where it stands, by two: `u`
takes over some of the values that `c` reads and hands a link to `v`, which reads the rest and has the
outputs. To the readers of other values `u` and `v` look as `c` did, provided that they contribute what `c`
contributed (`Splits.Faithful`). If `c` is not cyclic, propagation then comes to the same: the same nodes
are cyclic (`Splits.cyclic_eq`), the others have the same paddings (`Splits.outputPadding_eq`), and no
disagreement is lost or added (`Splits.agree`). -/

namespace NetLowering

theorem forall₂_replicate {α β : Type} {R : α → β → Prop} {x : α} {y : β} {k : Nat} (h : 0 < k → R x y) :
    List.Forall₂ R (List.replicate k x) (List.replicate k y) := by
  induction k with
  | zero => exact .nil
  | succ k ih => exact .cons (h (Nat.succ_pos k)) (ih fun _ => h (Nat.succ_pos k))

namespace Model

/-- The second model is the first with the node `c` split into `u` and `v`, which are linked by the new
value `w`. -/
structure Splits (m m' : Model) (pre : List Node) (c u v : Node) (post : List Node) (w : String) :
    Prop where
  nodes : m.nodes = pre ++ c :: post
  nodes' : m'.nodes = pre ++ u :: v :: post
  tensors : m'.tensors = m.tensors
  link : u.outputs = [w]
  outputs : v.outputs = c.outputs
  fresh : ∀ k ∈ m.nodes, w ∉ k.inputs ∧ w ∉ k.outputs
  unread : w ∉ u.inputs
  once : v.inputs.count w = 1
  count : ∀ z, z ≠ w → u.inputs.count z + v.inputs.count z = c.inputs.count z
  proper : u.kind ≠ .skip ∧ u.kind ≠ .input ∧ v.kind ≠ .skip
  input : v.kind = .input ↔ c.kind = .input

/-- Which node of the second model stands for which of the first. -/
inductive Stands (pre : List Node) (c v : Node) (post : List Node) : Node → Node → Prop
  | other {k : Node} : k ∈ pre ++ post → Stands pre c v post k k
  | last : Stands pre c v post c v

/-- A node that reads in place of `c` contributes what `c` does, if the node that stands for `c` has its
requirements. Those matter only if `c` is transparent. -/
def Faithful (m m' : Model) (c u v : Node) (w : String) : Prop :=
  (c.kind.isTransparent = true → m'.requirements v = m.requirements c) →
    ∀ r, r = u ∨ r = v → (∃ z ∈ r.inputs, z ≠ w) → m'.contribution r = m.contribution c

namespace Splits

variable {m m' : Model} {pre post : List Node} {c u v : Node} {w : String}
variable (h : m.Splits m' pre c u v post w)
include h

theorem mem_left {k : Node} (hk : k ∈ pre ++ post) : k ∈ m.nodes := by
  rw [h.nodes]
  rcases List.mem_append.mp hk with hk | hk
  · exact List.mem_append_left _ hk
  · exact List.mem_append_right _ (List.mem_cons_of_mem _ hk)

theorem mem_c : c ∈ m.nodes := by rw [h.nodes]; simp

theorem mem_u : u ∈ m'.nodes := by rw [h.nodes']; simp

theorem mem_v : v ∈ m'.nodes := by rw [h.nodes']; simp

theorem mem_right {k : Node} (hk : k ∈ pre ++ post) : k ∈ m'.nodes := by
  rw [h.nodes']
  rcases List.mem_append.mp hk with hk | hk
  · exact List.mem_append_left _ hk
  · exact List.mem_append_right _ (List.mem_cons_of_mem _ (List.mem_cons_of_mem _ hk))

theorem mem_of_stands {k k' : Node} (hs : Stands pre c v post k k') : k ∈ m.nodes ∧ k' ∈ m'.nodes := by
  cases hs with
  | other hk => exact ⟨h.mem_left hk, h.mem_right hk⟩
  | last => exact ⟨h.mem_c, h.mem_v⟩

theorem tensor?_eq (id : String) : m'.tensor? id = m.tensor? id := by
  unfold Model.tensor?
  rw [h.tensors]

theorem mem_inputs_iff {z : String} (hz : z ≠ w) : z ∈ u.inputs ∨ z ∈ v.inputs ↔ z ∈ c.inputs := by
  have hcount := h.count z hz
  rw [← List.count_pos_iff, ← List.count_pos_iff, ← List.count_pos_iff]
  omega

theorem w_mem : w ∈ v.inputs := by
  rw [← List.count_pos_iff, h.once]
  exact Nat.one_pos

theorem firstOutput?_eq {k k' : Node} (hs : Stands pre c v post k k') :
    k'.firstOutput? = k.firstOutput? := by
  cases hs with
  | other hk => rfl
  | last => unfold Node.firstOutput?; rw [h.outputs]

/-! ### Readers -/

/-- Other readers stay, and `u` and `v` come in the place of `c`. -/
theorem forall₂_consumers {R : Node → Node → Prop} {z : String} (hz : z ≠ w)
    (hothers : ∀ r ∈ pre ++ post, z ∈ r.inputs → R r r)
    (hsplit : ∀ r, r = u ∨ r = v → z ∈ r.inputs → R c r) :
    List.Forall₂ R (m.consumers z) (m'.consumers z) := by
  have hsame : ∀ nodes : List Node, (∀ r ∈ nodes, r ∈ pre ++ post) →
      List.Forall₂ R (nodes.flatMap fun n => List.replicate (n.inputs.count z) n)
        (nodes.flatMap fun n => List.replicate (n.inputs.count z) n) := by
    intro nodes hsub
    refine List.forall₂_same.mpr fun r hr => ?_
    obtain ⟨n, hn, hr⟩ := List.mem_flatMap.mp hr
    obtain ⟨hcount, rfl⟩ := List.mem_replicate.mp hr
    exact hothers r (hsub r hn) (List.count_pos_iff.mp (Nat.pos_of_ne_zero hcount))
  have hmiddle : List.Forall₂ R (List.replicate (c.inputs.count z) c)
      (List.replicate (u.inputs.count z) u ++ List.replicate (v.inputs.count z) v) := by
    rw [← h.count z hz, List.replicate_add]
    refine List.rel_append (forall₂_replicate fun hpos => ?_) (forall₂_replicate fun hpos => ?_)
    · exact hsplit u (.inl rfl) (List.count_pos_iff.mp hpos)
    · exact hsplit v (.inr rfl) (List.count_pos_iff.mp hpos)
  rw [consumers_eq, consumers_eq, h.nodes, h.nodes', List.flatMap_append, List.flatMap_append,
    List.flatMap_cons, List.flatMap_cons, List.flatMap_cons,
    ← List.append_assoc (List.replicate (u.inputs.count z) u)]
  refine List.rel_append (hsame pre fun r hr => List.mem_append_left _ hr) ?_
  exact List.rel_append hmiddle (hsame post fun r hr => List.mem_append_right _ hr)

theorem forall₂_readers {R : Node → Node → Prop} {k k' : Node} (hs : Stands pre c v post k k')
    (hothers : ∀ r ∈ pre ++ post, r ∈ m.readers k → R r r)
    (hsplit : c ∈ m.readers k → ∀ r, r = u ∨ r = v → (∃ z ∈ r.inputs, z ≠ w) → R c r) :
    List.Forall₂ R (m.readers k) (m'.readers k') := by
  have hfirst := h.firstOutput?_eq hs
  unfold Model.readers at hothers hsplit ⊢
  rw [hfirst]
  cases hz : k.firstOutput? with
  | none => exact .nil
  | some z =>
      rw [hz] at hothers hsplit
      have hne : z ≠ w := by
        rintro rfl
        exact (h.fresh k (h.mem_of_stands hs).1).2 (List.mem_of_mem_head? hz)
      refine h.forall₂_consumers hne (fun r hr hread => ?_) fun r hr hread => ?_
      · exact hothers r hr (mem_consumers_iff.mpr ⟨h.mem_left hr, hread⟩)
      · have hc : z ∈ c.inputs := by
          rw [← h.mem_inputs_iff hne]
          rcases hr with rfl | rfl
          · exact .inl hread
          · exact .inr hread
        exact hsplit (mem_consumers_iff.mpr ⟨h.mem_c, hc⟩) r hr ⟨z, hread, hne⟩

theorem readers_u : m'.readers u = [v] := by
  have hnone : ∀ nodes : List Node, (∀ r ∈ nodes, r ∈ pre ++ post) →
      (nodes.flatMap fun n => List.replicate (n.inputs.count w) n) = [] := by
    intro nodes hsub
    rw [List.flatMap_eq_nil_iff]
    intro r hr
    rw [List.count_eq_zero.mpr (h.fresh r (h.mem_left (hsub r hr))).1]
    rfl
  unfold Model.readers Node.firstOutput?
  rw [h.link, List.head?_cons]
  dsimp only
  rw [consumers_eq, h.nodes', List.flatMap_append, List.flatMap_cons, List.flatMap_cons,
    hnone pre fun r hr => List.mem_append_left _ hr, hnone post fun r hr => List.mem_append_right _ hr,
    h.once, List.count_eq_zero.mpr h.unread]
  rfl

/-! ### Requirements -/

section requirements
variable (hm : m.Consistent) (hm' : m'.Consistent) (hf : Faithful m m' c u v w)
variable (hc : m.requirements c ≠ none)
include hm hm'

omit hm in
theorem requirements_u : m'.requirements u = m'.contribution v := by
  rw [requirements_eq hm' h.mem_u, h.readers_u, List.mapM_cons, List.mapM_nil]
  cases m'.contribution v with
  | none => rfl
  | some required => exact congrArg some (List.append_nil required)

include hf in
theorem requirements_of_ne_none {k k' : Node} (hk : m.requirements k ≠ none)
    (hs : Stands pre c v post k k') : m'.requirements k' = m.requirements k := by
  refine requirements_induct (P := fun k => ∀ k', Stands pre c v post k k' →
    m'.requirements k' = m.requirements k) ?_ k (h.mem_of_stands hs).1 hk k' hs
  intro k hk _ ih k' hs
  refine requirements_congr hm hm' hk (h.mem_of_stands hs).2 (h.forall₂_readers hs ?_ ?_)
  · intro r hr hread
    unfold contribution
    by_cases htrans : r.kind.isTransparent = true
    · rw [ih r hread htrans r (.other hr)]
    · rw [if_neg htrans, if_neg htrans]
  · intro hread r hr hz
    exact hf (fun htrans => ih c hread htrans v .last) r hr hz

omit hm' in
include hc in
/-- No cyclic node ceases to be so by the split. -/
theorem requirements_ne_none {k k' : Node} (hk' : m'.requirements k' ≠ none)
    (hs : Stands pre c v post k k') : m.requirements k ≠ none := by
  refine requirements_induct (P := fun k' => ∀ k, Stands pre c v post k k' →
    m.requirements k ≠ none) ?_ k' (h.mem_of_stands hs).2 hk' k hs
  intro k' hk' _ ih k hs
  rw [requirements_ne_none_iff hm (h.mem_of_stands hs).1]
  intro r hr htrans
  -- every other reader is a reader after the split
  have hmem : ∀ r ∈ m.readers k, r ∈ pre ++ post → r ∈ m'.readers k' := by
    intro r hr hother
    unfold Model.readers at hr ⊢
    rw [h.firstOutput?_eq hs]
    split at hr
    · exact mem_consumers_iff.mpr ⟨h.mem_right hother, (mem_consumers_iff.mp hr).2⟩
    · cases hr
  have hnodes := mem_nodes_of_mem_readers hr
  rw [h.nodes, List.mem_append, List.mem_cons] at hnodes
  rcases hnodes with hpre | rfl | hpost
  · have hother := List.mem_append_left post hpre
    exact ih r (hmem r hr hother) htrans r (.other hother)
  · exact hc
  · have hother := List.mem_append_right pre hpost
    exact ih r (hmem r hr hother) htrans r (.other hother)

include hf hc

theorem requirements_eq {k k' : Node} (hs : Stands pre c v post k k') :
    m'.requirements k' = m.requirements k := by
  by_cases hk : m.requirements k = none
  · rw [hk]
    by_contra hne
    exact h.requirements_ne_none hm hc hne hs hk
  · exact h.requirements_of_ne_none hm hm' hf hk hs

theorem requirements_u_ne_none : m'.requirements u ≠ none := by
  rw [h.requirements_u hm']
  unfold contribution
  rw [h.requirements_eq hm hm' hf hc .last, if_neg h.proper.2.2]
  split
  · simpa using hc
  · simp

/-! ### Propagation -/

theorem cyclic_eq : m'.propagation.cyclic = m.propagation.cyclic := by
  have hsame : ∀ nodes : List Node, (∀ k ∈ nodes, k ∈ pre ++ post) →
      nodes.filter (fun k => (m'.requirements k).isNone) =
        nodes.filter fun k => (m.requirements k).isNone := by
    intro nodes hsub
    refine List.filter_congr fun k hk => ?_
    rw [h.requirements_eq hm hm' hf hc (.other (hsub k hk))]
  have hu := h.requirements_u_ne_none hm hm' hf hc
  have hv := h.requirements_eq hm hm' hf hc .last
  unfold propagation
  dsimp only
  rw [h.nodes, h.nodes', List.filter_append, List.filter_append, List.filter_cons, List.filter_cons,
    List.filter_cons, hv, hsame pre fun k hk => List.mem_append_left _ hk,
    hsame post fun k hk => List.mem_append_right _ hk, if_neg (by simpa using hu),
    if_neg (by simpa using hc), if_neg (by simpa using hc)]

theorem isCyclic_eq : m'.propagation.isCyclic = m.propagation.isCyclic := by
  funext id
  unfold Propagation.isCyclic
  rw [h.cyclic_eq hm hm' hf hc]

theorem isCyclic_u : m'.propagation.isCyclic u.id = false := by
  rw [isCyclic_propagation hm' h.mem_u, Option.isNone_eq_false_iff, ← Option.ne_none_iff_isSome]
  exact h.requirements_u_ne_none hm hm' hf hc

theorem isCyclic_v : m'.propagation.isCyclic v.id = false := by
  rw [isCyclic_propagation hm' h.mem_v, h.requirements_eq hm hm' hf hc .last,
    Option.isNone_eq_false_iff, ← Option.ne_none_iff_isSome]
  exact hc

theorem outputPadding_eq {k k' : Node} (hs : Stands pre c v post k k')
    (hk : m.propagation.isCyclic k.id = false) :
    m'.propagation.outputPadding k'.id = m.propagation.outputPadding k.id := by
  obtain ⟨hmem, hmem'⟩ := h.mem_of_stands hs
  rw [isCyclic_propagation hm hmem] at hk
  obtain ⟨required, hreq⟩ := Option.isSome_iff_exists.mp (by simpa using hk)
  rw [outputPadding_propagation hm hmem hreq, outputPadding_propagation hm' hmem'
    ((h.requirements_eq hm hm' hf hc hs).trans hreq)]

/-- If the readers of every node agree, they do after the split: the link has one reader only. -/
theorem agree (hagree : ∀ k ∈ m.nodes, m.conflict? k = none) : ∀ k ∈ m'.nodes, m'.conflict? k = none := by
  have hstands (k k' : Node) (hs : Stands pre c v post k k') : m'.conflict? k' = none := by
    have hk := hagree k (h.mem_of_stands hs).1
    rw [conflict?_eq_none_iff] at hk ⊢
    rw [h.requirements_eq hm hm' hf hc hs]
    exact hk
  have hu : m'.conflict? u = none := by
    rw [conflict?_eq_none_iff, h.requirements_u hm']
    intro required hreq
    unfold contribution at hreq
    rw [if_neg h.proper.2.2] at hreq
    split at hreq
    · obtain ⟨forwarded, _, rfl⟩ := Option.map_eq_some_iff.mp hreq
      cases forwarded <;> rfl
    · cases hreq; rfl
  intro k hk
  rw [h.nodes', List.mem_append, List.mem_cons, List.mem_cons] at hk
  rcases hk with hpre | rfl | rfl | hpost
  · exact hstands k k (.other (List.mem_append_left _ hpre))
  · exact hu
  · exact hstands c k .last
  · exact hstands k k (.other (List.mem_append_right _ hpost))

end requirements

end Splits

end Model

end NetLowering
