import NetLowering.Padding.Propagation
import NetLowering.Proofs.Reachable
import NetLowering.Proofs.Sequence

/-! # What propagation settles

Every node that is not cyclic is given the first of the requirements of its readers, and in strict mode
all of them are the same (`propagate_settles`). A reader of an ordinary kind requires its own input
padding, and a transparent one the first requirement of its own readers, whatever walk it is met on:
the requirements do not depend on which nodes are still fresh (`requirementsOf_mono`). -/

namespace NetLowering

namespace Model

variable {m : Model} {fresh fresh' : List String} {readers : List Node} {required : List Padding}

/-! ### Requirements -/

theorem mem_readers_of_outputs {n reader : Node} {x : String} (hn : n.outputs = [x])
    (hr : reader ∈ m.nodes) (hx : x ∈ reader.inputs) : reader ∈ m.readers n := by
  unfold Model.readers Node.firstOutput?
  rw [hn]
  exact mem_consumers_iff.mpr ⟨hr, hx⟩

/-- A walk that does not loop back gives the same with more fresh nodes. -/
theorem requirementsOf_mono (hsub : fresh.Sublist fresh')
    (h : m.requirementsOf fresh readers = some required) :
    m.requirementsOf fresh' readers = some required := by
  fun_induction Model.requirementsOf m fresh readers generalizing fresh' required with
  | case1 fresh => rw [requirementsOf]; exact h
  | case2 fresh reader rest hskip ih =>
      rw [requirementsOf, if_pos hskip]
      exact ih hsub h
  | case3 => cases h
  | case4 fresh reader rest hskip htrans hfresh forwarded hforwarded ihforward ihrest =>
      obtain ⟨later, hlater, rfl⟩ := Option.map_eq_some_iff.mp h
      rw [requirementsOf, if_neg hskip, if_pos htrans, if_pos (hsub.subset hfresh),
        ihforward (hsub.erase _) hforwarded, ihrest hsub hlater]
      rfl
  | case5 => cases h
  | case6 fresh reader rest hskip htrans ih =>
      obtain ⟨later, hlater, rfl⟩ := Option.map_eq_some_iff.mp h
      rw [requirementsOf, if_neg hskip, if_neg htrans, ih hsub hlater]
      rfl

theorem inputPadding_mem_requirementsOf (h : m.requirementsOf fresh readers = some required)
    {reader : Node} (hr : reader ∈ readers) (hskip : reader.kind ≠ .skip)
    (htrans : reader.kind.isTransparent = false) : reader.inputPadding ∈ required := by
  fun_induction Model.requirementsOf m fresh readers generalizing required with
  | case1 => cases hr
  | case2 fresh other rest hother ih =>
      rcases List.mem_cons.mp hr with rfl | hr
      · exact absurd hother hskip
      · exact ih h hr
  | case3 => cases h
  | case4 fresh other rest _ hother _ forwarded _ _ ihrest =>
      obtain ⟨later, hlater, rfl⟩ := Option.map_eq_some_iff.mp h
      rcases List.mem_cons.mp hr with rfl | hr
      · rw [htrans] at hother; cases hother
      · exact List.mem_append_right _ (ihrest hlater hr)
  | case5 => cases h
  | case6 fresh other rest _ _ ih =>
      obtain ⟨later, hlater, rfl⟩ := Option.map_eq_some_iff.mp h
      rcases List.mem_cons.mp hr with rfl | hr
      · exact List.mem_cons_self
      · exact List.mem_cons_of_mem _ (ih hlater hr)

theorem head_mem_requirementsOf (h : m.requirementsOf fresh readers = some required)
    {reader : Node} (hr : reader ∈ readers) (htrans : reader.kind.isTransparent = true) :
    ∃ forwarded, m.requirementsOf (fresh.erase reader.id) (m.readers reader) = some forwarded ∧
      ∀ q, forwarded.head? = some q → q ∈ required := by
  fun_induction Model.requirementsOf m fresh readers generalizing required with
  | case1 => cases hr
  | case2 fresh other rest hother ih =>
      rcases List.mem_cons.mp hr with rfl | hr
      · rw [hother] at htrans; cases htrans
      · exact ih h hr
  | case3 => cases h
  | case4 fresh other rest _ _ _ forwarded hforwarded ihforward ihrest =>
      obtain ⟨later, hlater, rfl⟩ := Option.map_eq_some_iff.mp h
      rcases List.mem_cons.mp hr with rfl | hr
      · refine ⟨forwarded, hforwarded, fun q hq => List.mem_append_left _ ?_⟩
        rw [hq]; exact List.mem_singleton_self q
      · obtain ⟨forwarded', hf, hq⟩ := ihrest hlater hr
        exact ⟨forwarded', hf, fun q hhead => List.mem_append_right _ (hq q hhead)⟩
  | case5 => cases h
  | case6 fresh other rest _ hother ih =>
      obtain ⟨later, hlater, rfl⟩ := Option.map_eq_some_iff.mp h
      rcases List.mem_cons.mp hr with rfl | hr
      · exact absurd htrans hother
      · obtain ⟨forwarded, hf, hq⟩ := ih hlater hr
        exact ⟨forwarded, hf, fun q hhead => List.mem_cons_of_mem _ (hq q hhead)⟩

/-- What a transparent reader hands on is the first of its own requirements. -/
theorem head_mem_requirements {n reader : Node} (h : m.requirements n = some required)
    (hr : reader ∈ m.readers n) (htrans : reader.kind.isTransparent = true) :
    ∃ forwarded, m.requirements reader = some forwarded ∧
      ∀ q, forwarded.head? = some q → q ∈ required := by
  obtain ⟨forwarded, hf, hq⟩ := head_mem_requirementsOf h hr htrans
  refine ⟨forwarded, requirementsOf_mono ?_ hf, hq⟩
  exact List.erase_sublist.erase _

end Model

/-! ### Visits -/

theorem eq_head_of_firstDifference?_eq_none {required : List Padding}
    (h : firstDifference? required = none) : ∀ q ∈ required, q = required.head?.getD .absent := by
  cases required with
  | nil => intro q hq; cases hq
  | cons first rest =>
      intro q hq
      rcases List.mem_cons.mp hq with rfl | hq
      · rfl
      · unfold firstDifference? at h
        rw [Option.map_eq_none_iff, List.find?_eq_none] at h
        simpa using h q hq

namespace Propagation

variable {strict : Bool} {m : Model} {p p' : Propagation} {n : Node}

/-- What a visit does: the node is cyclic, or it is given its first requirement. -/
theorem visit_eq_ok (h : p.visit strict m n = .ok p') :
    (m.requirements n = none ∧ p'.output = p.output ∧ p'.cyclic = p.cyclic ++ [n]) ∨
      ∃ required, m.requirements n = some required ∧
        p'.output = p.output ++ [(n.id, required.head?.getD .absent)] ∧ p'.cyclic = p.cyclic ∧
        (strict = true → firstDifference? required = none) := by
  unfold visit at h
  cases hreq : m.requirements n with
  | none =>
      rw [hreq] at h
      cases h
      exact .inl ⟨rfl, rfl, rfl⟩
  | some required =>
      rw [hreq] at h
      dsimp only at h
      refine .inr ⟨required, rfl, ?_⟩
      cases hdiff : firstDifference? required with
      | none =>
          rw [hdiff] at h
          cases h
          exact ⟨rfl, rfl, fun _ => rfl⟩
      | some pair =>
          rw [hdiff] at h
          dsimp only at h
          split at h
          · cases h
          · rename_i hstrict
            cases h
            exact ⟨rfl, rfl, fun hs => absurd hs hstrict⟩

/-- Propagation only fails where readers disagree. -/
theorem visit_eq_error {e : Error} (h : p.visit strict m n = .error e) :
    ∃ first other, e.cause = .ambiguousPadding first other := by
  unfold visit at h
  cases hreq : m.requirements n with
  | none => rw [hreq] at h; cases h
  | some required =>
      rw [hreq] at h
      dsimp only at h
      cases hdiff : firstDifference? required with
      | none => rw [hdiff] at h; cases h
      | some pair =>
          rw [hdiff] at h
          dsimp only at h
          split at h
          · cases h; exact ⟨pair.1, pair.2, rfl⟩
          · cases h

theorem visits_grow {nodes : List Node} (h : nodes.foldlM (visit strict m) p = .ok p') :
    ∃ output cyclic, p'.output = p.output ++ output ∧ p'.cyclic = p.cyclic ++ cyclic ∧
      (∀ entry ∈ output, ∃ k ∈ nodes, entry.1 = k.id) ∧ ∀ k ∈ cyclic, k ∈ nodes := by
  induction nodes generalizing p with
  | nil =>
      cases h
      exact ⟨[], [], by simp, by simp, by simp, by simp⟩
  | cons n rest ih =>
      rw [List.foldlM_cons, bind_eq_ok_iff] at h
      obtain ⟨p₁, hn, h⟩ := h
      obtain ⟨output, cyclic, hout, hcyc, houtput, hcyclic⟩ := ih h
      have hrest (k : Node) (hk : k ∈ cyclic) : k ∈ n :: rest := List.mem_cons_of_mem _ (hcyclic k hk)
      have hentry (entry : String × Padding) (he : entry ∈ output) :
          ∃ k ∈ n :: rest, entry.1 = k.id := by
        obtain ⟨k, hk, hid⟩ := houtput entry he
        exact ⟨k, List.mem_cons_of_mem _ hk, hid⟩
      rcases visit_eq_ok hn with ⟨_, ho, hc⟩ | ⟨required, _, ho, hc, _⟩
      · refine ⟨output, n :: cyclic, by rw [hout, ho], by rw [hcyc, hc, List.append_assoc]; rfl,
          hentry, ?_⟩
        intro k hk
        rcases List.mem_cons.mp hk with rfl | hk
        · exact List.mem_cons_self
        · exact hrest k hk
      · refine ⟨(n.id, required.head?.getD .absent) :: output, cyclic,
          by rw [hout, ho, List.append_assoc]; rfl, by rw [hcyc, hc], ?_, hrest⟩
        intro entry he
        rcases List.mem_cons.mp he with rfl | he
        · exact ⟨n, List.mem_cons_self, rfl⟩
        · exact hentry entry he

end Propagation

/-! ### All nodes -/

/-- What propagation settles for a node: it is cyclic, or it is to write its first requirement, which in
strict mode is its only one. -/
theorem propagate_settles {strict : Bool} {m : Model} {paddings : Propagation} (hm : m.Consistent)
    (h : propagate strict m = .ok paddings) {n : Node} (hn : n ∈ m.nodes) :
    (m.requirements n = none ∧ paddings.isCyclic n.id = true) ∨
      ∃ required, m.requirements n = some required ∧ paddings.isCyclic n.id = false ∧
        paddings.outputPadding n.id = required.head?.getD .absent ∧
        (strict = true → ∀ q ∈ required, q = required.head?.getD .absent) := by
  obtain ⟨pre, post, hsplit⟩ := List.append_of_mem hn
  have hids := hm.ids_nodup
  rw [hsplit, List.map_append, List.map_cons, List.nodup_append] at hids
  have hpre (k : Node) (hk : k ∈ pre) : k.id ≠ n.id :=
    hids.2.2 _ (List.mem_map_of_mem hk) _ List.mem_cons_self
  have hpost (k : Node) (hk : k ∈ post) : k.id ≠ n.id := by
    intro heq
    exact (List.nodup_cons.mp hids.2.1).1 (heq ▸ List.mem_map_of_mem hk)
  unfold propagate at h
  rw [hsplit] at h
  obtain ⟨p₁, p₂, hfirst, hvisit, hlast⟩ := foldlM_append_cons_eq_ok h
  obtain ⟨out₁, cyc₁, ho₁, hc₁, hout₁, hcyc₁⟩ := Propagation.visits_grow hfirst
  obtain ⟨out₂, cyc₂, ho₂, hc₂, hout₂, hcyc₂⟩ := Propagation.visits_grow hlast
  have hbefore : p₁.output.lookup n.id = none := by
    rw [ho₁, List.nil_append, List.lookup_eq_none_iff]
    intro entry he
    obtain ⟨k, hk, hid⟩ := hout₁ entry he
    rw [hid]
    simpa using (hpre k hk).symm
  have hcyc : ∀ k ∈ cyc₁ ++ cyc₂, k.id ≠ n.id := by
    intro k hk
    rcases List.mem_append.mp hk with hk | hk
    · exact hpre k (hcyc₁ k hk)
    · exact hpost k (hcyc₂ k hk)
  rcases Propagation.visit_eq_ok hvisit with ⟨hreq, _, hc⟩ | ⟨required, hreq, ho, hc, hstrict⟩
  · refine .inl ⟨hreq, ?_⟩
    unfold Propagation.isCyclic
    rw [hc₂, hc]
    simp
  · refine .inr ⟨required, hreq, ?_, ?_, fun hs => eq_head_of_firstDifference?_eq_none (hstrict hs)⟩
    · unfold Propagation.isCyclic
      rw [hc₂, hc, hc₁, List.nil_append, List.any_eq_false]
      intro k hk
      simpa using hcyc k hk
    · unfold Propagation.outputPadding
      rw [ho₂, ho, List.lookup_append, List.lookup_append, hbefore]
      simp

theorem propagate_eq_error {strict : Bool} {m : Model} {e : Error}
    (h : propagate strict m = .error e) : ∃ first other, e.cause = .ambiguousPadding first other := by
  obtain ⟨_, _, _, _, _, _, hvisit⟩ := foldlM_eq_error h
  exact Propagation.visit_eq_error hvisit

end NetLowering
