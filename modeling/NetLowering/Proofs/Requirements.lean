import NetLowering.Proofs.Propagation

/-! # Requirements, reader by reader

The requirements of a node are collected by a walk that remembers where it has been. What it finds can be
said without the walk: each reader makes a contribution of its own, and a transparent reader that of its
requirements, which are those of a node like any other (`requirements_eq`). So two nodes whose readers
contribute alike have the same requirements, also in different models (`requirements_congr`). The walk
leaves its trace in an induction: what holds of a node as soon as it holds of its transparent readers
holds of every node that is not cyclic (`requirements_induct`).

Propagation visits the nodes one by one, but no visit depends on those before it. `Model.propagation` is
its result in one piece, and strict mode only adds a condition (`propagate_eq_ok_iff`). -/

namespace NetLowering

namespace Model

variable {m : Model} {fresh : List String} {readers : List Node} {required : List Padding}

/-- What one reader adds to the requirements of a node: nothing, its own input padding, or the first of
its requirements if it has any. -/
def contribution (m : Model) (reader : Node) : Option (List Padding) :=
  if reader.kind = .skip then some []
  else if reader.kind.isTransparent then
    (m.requirements reader).map fun forwarded => forwarded.head?.toList
  else some [reader.inputPadding]

def transparentIds (m : Model) : List String :=
  (m.nodes.filter fun n => n.kind.isTransparent).map Node.id

theorem mem_nodes_of_mem_readers {n r : Node} (h : r ∈ m.readers n) : r ∈ m.nodes := by
  unfold Model.readers at h
  split at h
  · exact (mem_consumers_iff.mp h).1
  · cases h

theorem ne_skip_of_isTransparent {n : Node} (h : n.kind.isTransparent = true) : n.kind ≠ .skip := by
  intro hskip
  rw [hskip] at h
  cases h

theorem Consistent.transparentIds_nodup (hm : m.Consistent) : m.transparentIds.Nodup :=
  hm.ids_nodup.sublist (List.filter_sublist.map _)

theorem mem_transparentIds {n : Node} (hn : n ∈ m.nodes) (htrans : n.kind.isTransparent = true) :
    n.id ∈ m.transparentIds :=
  List.mem_map_of_mem (List.mem_filter.mpr ⟨hn, htrans⟩)

/-! ### Walks -/

/-- A walk that does not loop back meets no transparent reader twice. -/
theorem mem_fresh_of_requirementsOf (h : m.requirementsOf fresh readers = some required) {t : Node}
    (ht : t ∈ readers) (htrans : t.kind.isTransparent = true) : t.id ∈ fresh := by
  fun_induction Model.requirementsOf m fresh readers generalizing required with
  | case1 => cases ht
  | case2 fresh other rest hskip ih =>
      rcases List.mem_cons.mp ht with rfl | ht
      · exact absurd hskip (ne_skip_of_isTransparent htrans)
      · exact ih h ht
  | case3 => cases h
  | case4 fresh other rest _ _ hfresh forwarded _ _ ih =>
      obtain ⟨later, hlater, _⟩ := Option.map_eq_some_iff.mp h
      rcases List.mem_cons.mp ht with rfl | ht
      · exact hfresh
      · exact ih hlater ht
  | case5 => cases h
  | case6 fresh other rest _ hother ih =>
      obtain ⟨later, hlater, _⟩ := Option.map_eq_some_iff.mp h
      rcases List.mem_cons.mp ht with rfl | ht
      · exact absurd htrans hother
      · exact ih hlater ht

/-- A walk that does not loop back, and has met a transparent reader of `a` before, does not meet `a`:
from there it would come to that reader again. -/
theorem requirementsOf_erase (hm : m.Consistent) {a t : Node} (ha : a ∈ m.nodes) (ht : t ∈ m.readers a)
    (htrans : t.kind.isTransparent = true) (hmet : t.id ∉ fresh) (hsub : ∀ r ∈ readers, r ∈ m.nodes)
    (h : m.requirementsOf fresh readers = some required) :
    m.requirementsOf (fresh.erase a.id) readers = some required := by
  fun_induction Model.requirementsOf m fresh readers generalizing required with
  | case1 fresh => rw [requirementsOf]; exact h
  | case2 fresh reader rest hskip ih =>
      rw [requirementsOf, if_pos hskip]
      exact ih hmet (fun r hr => hsub r (List.mem_cons_of_mem _ hr)) h
  | case3 => cases h
  | case4 fresh reader rest hskip hreader hfresh forwarded hforwarded ihforward ihrest =>
      obtain ⟨later, hlater, rfl⟩ := Option.map_eq_some_iff.mp h
      have hmet' : t.id ∉ fresh.erase reader.id := fun hmem => hmet (List.mem_of_mem_erase hmem)
      have hne : reader.id ≠ a.id := by
        intro hid
        have hsame : reader = a := hm.eq_of_id_eq (hsub reader List.mem_cons_self) ha hid
        exact hmet' (mem_fresh_of_requirementsOf hforwarded (hsame ▸ ht) htrans)
      have hin : reader.id ∈ fresh.erase a.id := (List.mem_erase_of_ne hne).mpr hfresh
      have hwalk := ihforward hmet' (fun r hr => mem_nodes_of_mem_readers hr) hforwarded
      rw [List.erase_comm] at hwalk
      have hrest := ihrest hmet (fun r hr => hsub r (List.mem_cons_of_mem _ hr)) hlater
      rw [requirementsOf, if_neg hskip, if_pos hreader, if_pos hin, hwalk, hrest]
      rfl
  | case5 => cases h
  | case6 fresh reader rest hskip hreader ih =>
      obtain ⟨later, hlater, rfl⟩ := Option.map_eq_some_iff.mp h
      have hrest := ih hmet (fun r hr => hsub r (List.mem_cons_of_mem _ hr)) hlater
      rw [requirementsOf, if_neg hskip, if_neg hreader, hrest]
      rfl

/-- On the walk of a node, a transparent reader is met with the requirements it has itself. -/
theorem requirementsOf_reader (hm : m.Consistent) {n r : Node} (hn : n ∈ m.nodes)
    (hr : r ∈ m.readers n) (htrans : r.kind.isTransparent = true) :
    m.requirementsOf ((m.transparentOthers n).erase r.id) (m.readers r) = m.requirements r := by
  cases hreq : m.requirements r with
  | some forwarded =>
      have hmet : r.id ∉ m.transparentIds.erase r.id := hm.transparentIds_nodup.not_mem_erase
      have hwalk := requirementsOf_erase hm hn hr htrans hmet (fun s hs => mem_nodes_of_mem_readers hs) hreq
      rw [List.erase_comm] at hwalk
      exact hwalk
  | none =>
      cases hwalk : m.requirementsOf ((m.transparentOthers n).erase r.id) (m.readers r) with
      | none => rfl
      | some forwarded =>
          have hmono := requirementsOf_mono (List.erase_sublist.erase r.id) hwalk
          exact absurd (hreq.symm.trans hmono) (by simp)

theorem requirementsOf_eq (hm : m.Consistent) {n : Node} (hn : n ∈ m.nodes)
    (hsub : ∀ r ∈ readers, r ∈ m.readers n) :
    m.requirementsOf (m.transparentOthers n) readers =
      (readers.mapM m.contribution).map List.flatten := by
  induction readers with
  | nil => rw [requirementsOf]; rfl
  | cons r rest ih =>
      have hr : r ∈ m.readers n := hsub r List.mem_cons_self
      have hrest := ih fun s hs => hsub s (List.mem_cons_of_mem _ hs)
      rw [requirementsOf, hrest, List.mapM_cons]
      by_cases hskip : r.kind = .skip
      · rw [if_pos hskip, contribution, if_pos hskip]
        cases rest.mapM m.contribution <;> rfl
      rw [if_neg hskip, contribution, if_neg hskip]
      by_cases htrans : r.kind.isTransparent = true
      · rw [if_pos htrans, if_pos htrans]
        by_cases hfresh : r.id ∈ m.transparentOthers n
        · rw [if_pos hfresh, requirementsOf_reader hm hn hr htrans]
          cases m.requirements r with
          | none => rfl
          | some forwarded => cases rest.mapM m.contribution <;> rfl
        · -- only `n` itself is transparent and not among the others
          have hid : r.id = n.id := by
            by_contra hne
            exact hfresh ((List.mem_erase_of_ne hne).mpr
              (mem_transparentIds (mem_nodes_of_mem_readers hr) htrans))
          have hsame : r = n := hm.eq_of_id_eq (mem_nodes_of_mem_readers hr) hn hid
          have hnone : m.requirements r = none := by
            cases hreq : m.requirements r with
            | none => rfl
            | some forwarded =>
                subst hsame
                exact absurd (mem_fresh_of_requirementsOf hreq hr htrans) hfresh
          rw [if_neg hfresh, hnone]
          rfl
      · rw [if_neg htrans, if_neg htrans]
        cases rest.mapM m.contribution <;> rfl

/-! ### Requirements -/

/-- The requirements of a node are the contributions of its readers. -/
theorem requirements_eq (hm : m.Consistent) {n : Node} (hn : n ∈ m.nodes) :
    m.requirements n = ((m.readers n).mapM m.contribution).map List.flatten :=
  requirementsOf_eq hm hn fun _ hr => hr

theorem mapM_eq_of_forall₂ {α β γ : Type} {f : α → Option γ} {g : β → Option γ} {xs : List α} {ys : List β}
    (h : List.Forall₂ (fun x y => g y = f x) xs ys) : ys.mapM g = xs.mapM f := by
  induction h with
  | nil => rfl
  | cons hx _ ih => rw [List.mapM_cons, List.mapM_cons, hx, ih]

theorem requirements_congr {m' : Model} (hm : m.Consistent) (hm' : m'.Consistent) {n n' : Node}
    (hn : n ∈ m.nodes) (hn' : n' ∈ m'.nodes)
    (h : List.Forall₂ (fun r r' => m'.contribution r' = m.contribution r) (m.readers n) (m'.readers n')) :
    m'.requirements n' = m.requirements n := by
  rw [requirements_eq hm hn, requirements_eq hm' hn', mapM_eq_of_forall₂ h]

theorem mapM_ne_none_iff {α β : Type} {f : α → Option β} {xs : List α} :
    xs.mapM f ≠ none ↔ ∀ x ∈ xs, f x ≠ none := by
  induction xs with
  | nil => simp
  | cons x rest ih =>
      rw [List.mapM_cons, List.forall_mem_cons, ← ih]
      cases f x with
      | none => simp
      | some y => cases rest.mapM f <;> simp

theorem requirements_ne_none_iff (hm : m.Consistent) {n : Node} (hn : n ∈ m.nodes) :
    m.requirements n ≠ none ↔
      ∀ r ∈ m.readers n, r.kind.isTransparent = true → m.requirements r ≠ none := by
  rw [requirements_eq hm hn, ne_eq, Option.map_eq_none_iff, ← ne_eq, mapM_ne_none_iff]
  refine forall₂_congr fun r _ => ?_
  unfold contribution
  by_cases hskip : r.kind = .skip
  · simp [hskip, OpKind.isTransparent]
  · by_cases htrans : r.kind.isTransparent = true <;> simp [hskip, htrans]

/-- Induction along the readers of a node that is not cyclic. -/
theorem requirements_induct {P : Node → Prop}
    (step : ∀ n ∈ m.nodes, m.requirements n ≠ none →
      (∀ t ∈ m.readers n, t.kind.isTransparent = true → P t) → P n) :
    ∀ n ∈ m.nodes, m.requirements n ≠ none → P n := by
  have hwalk : ∀ fresh readers required, fresh.Sublist m.transparentIds →
      (∀ r ∈ readers, r ∈ m.nodes) → m.requirementsOf fresh readers = some required →
      ∀ t ∈ readers, t.kind.isTransparent = true → P t := by
    intro fresh readers required hall hsub h
    fun_induction Model.requirementsOf m fresh readers generalizing required with
    | case1 => intro t ht; cases ht
    | case2 fresh other rest hskip ih =>
        intro t ht htrans
        rcases List.mem_cons.mp ht with rfl | ht
        · exact absurd hskip (ne_skip_of_isTransparent htrans)
        · exact ih _ hall (fun r hr => hsub r (List.mem_cons_of_mem _ hr)) h t ht htrans
    | case3 => cases h
    | case4 fresh other rest _ _ _ forwarded hforwarded ihforward ihrest =>
        obtain ⟨later, hlater, _⟩ := Option.map_eq_some_iff.mp h
        intro t ht htrans
        rcases List.mem_cons.mp ht with rfl | ht
        · have hreq : m.requirements t = some forwarded :=
            requirementsOf_mono (hall.erase t.id) hforwarded
          refine step t (hsub t List.mem_cons_self) (by rw [hreq]; simp) ?_
          exact ihforward _ (List.erase_sublist.trans hall) (fun r hr => mem_nodes_of_mem_readers hr)
            hforwarded
        · exact ihrest _ hall (fun r hr => hsub r (List.mem_cons_of_mem _ hr)) hlater t ht htrans
    | case5 => cases h
    | case6 fresh other rest _ hother ih =>
        obtain ⟨later, hlater, _⟩ := Option.map_eq_some_iff.mp h
        intro t ht htrans
        rcases List.mem_cons.mp ht with rfl | ht
        · exact absurd htrans hother
        · exact ih _ hall (fun r hr => hsub r (List.mem_cons_of_mem _ hr)) hlater t ht htrans
  intro n hn hne
  obtain ⟨required, hreq⟩ := Option.ne_none_iff_exists'.mp hne
  exact step n hn hne (hwalk _ _ required List.erase_sublist (fun r hr => mem_nodes_of_mem_readers hr) hreq)

/-! ### Propagation in one piece -/

/-- The entry of a node that is not cyclic: the first of its requirements. -/
def entry? (m : Model) (n : Node) : Option (String × Padding) :=
  (m.requirements n).map fun required => (n.id, required.head?.getD .absent)

/-- The disagreement among the readers of a node. -/
def conflict? (m : Model) (n : Node) : Option PaddingConflict :=
  (m.requirements n).bind fun required =>
    (firstDifference? required).map fun pair => ⟨n, pair.1, pair.2⟩

/-- What propagation comes to when no disagreement is a failure. -/
def propagation (m : Model) : Propagation where
  output := m.nodes.filterMap m.entry?
  cyclic := m.nodes.filter fun n => (m.requirements n).isNone
  conflicts := m.nodes.filterMap m.conflict?

theorem conflict?_eq_none_iff {n : Node} : m.conflict? n = none ↔
    ∀ required, m.requirements n = some required → firstDifference? required = none := by
  unfold conflict?
  cases m.requirements n with
  | none => simp
  | some required => simp

end Model

theorem Propagation.visit_eq_ok_iff {strict : Bool} {m : Model} {p p' : Propagation} {n : Node} :
    p.visit strict m n = .ok p' ↔ (strict = true → m.conflict? n = none) ∧
      p' = ⟨p.output ++ (m.entry? n).toList,
        p.cyclic ++ [n].filter (fun k => (m.requirements k).isNone),
        p.conflicts ++ (m.conflict? n).toList⟩ := by
  unfold Propagation.visit Model.conflict? Model.entry?
  cases hreq : m.requirements n with
  | none => simp [hreq, eq_comm]
  | some required =>
      cases hdiff : firstDifference? required with
      | none => simp [hreq, hdiff, eq_comm]
      | some pair => cases strict <;> simp [hreq, hdiff, inScope, fail, eq_comm]

theorem Propagation.visits_eq_ok_iff {strict : Bool} {m : Model} {p p' : Propagation}
    {nodes : List Node} : nodes.foldlM (visit strict m) p = .ok p' ↔
      (strict = true → ∀ n ∈ nodes, m.conflict? n = none) ∧
      p' = ⟨p.output ++ nodes.filterMap m.entry?,
        p.cyclic ++ nodes.filter (fun k => (m.requirements k).isNone),
        p.conflicts ++ nodes.filterMap m.conflict?⟩ := by
  induction nodes generalizing p with
  | nil =>
      rw [List.foldlM_nil]
      show Except.ok p = Except.ok p' ↔ _
      simp [eq_comm]
  | cons n rest ih =>
      have hentry : (n :: rest).filterMap m.entry? = (m.entry? n).toList ++ rest.filterMap m.entry? := by
        cases h : m.entry? n <;> simp [h]
      have hconflict : (n :: rest).filterMap m.conflict? =
          (m.conflict? n).toList ++ rest.filterMap m.conflict? := by
        cases h : m.conflict? n <;> simp [h]
      have hcyclic : (n :: rest).filter (fun k => (m.requirements k).isNone) =
          [n].filter (fun k => (m.requirements k).isNone) ++
            rest.filter (fun k => (m.requirements k).isNone) := by
        rw [← List.filter_append, List.singleton_append]
      rw [List.foldlM_cons, bind_eq_ok_iff, hentry, hconflict, hcyclic]
      constructor
      · rintro ⟨p₁, hvisit, hrest⟩
        obtain ⟨hn, rfl⟩ := visit_eq_ok_iff.mp hvisit
        obtain ⟨hothers, rfl⟩ := ih.mp hrest
        refine ⟨fun hs k hk => ?_, by simp [List.append_assoc]⟩
        rcases List.mem_cons.mp hk with rfl | hk
        · exact hn hs
        · exact hothers hs k hk
      · rintro ⟨hall, rfl⟩
        refine ⟨_, visit_eq_ok_iff.mpr ⟨fun hs => hall hs n List.mem_cons_self, rfl⟩, ?_⟩
        refine ih.mpr ⟨fun hs k hk => hall hs k (List.mem_cons_of_mem _ hk), ?_⟩
        simp [List.append_assoc]

/-- Strict mode differs from the other only in what it refuses. -/
theorem propagate_eq_ok_iff {strict : Bool} {m : Model} {p : Propagation} :
    propagate strict m = .ok p ↔
      (strict = true → ∀ n ∈ m.nodes, m.conflict? n = none) ∧ p = m.propagation := by
  unfold propagate
  rw [Propagation.visits_eq_ok_iff]
  simp [Model.propagation]

namespace Model

variable {m : Model} {n : Node}

theorem isCyclic_propagation (hm : m.Consistent) (hn : n ∈ m.nodes) :
    m.propagation.isCyclic n.id = (m.requirements n).isNone := by
  have hprop : propagate false m = .ok m.propagation := propagate_eq_ok_iff.mpr ⟨nofun, rfl⟩
  rcases propagate_settles hm hprop hn with ⟨hreq, hcyclic⟩ | ⟨required, hreq, hcyclic, _⟩
  · rw [hcyclic, hreq]; rfl
  · rw [hcyclic, hreq]; rfl

theorem outputPadding_propagation (hm : m.Consistent) (hn : n ∈ m.nodes) {required : List Padding}
    (hreq : m.requirements n = some required) :
    m.propagation.outputPadding n.id = required.head?.getD .absent := by
  have hprop : propagate false m = .ok m.propagation := propagate_eq_ok_iff.mpr ⟨nofun, rfl⟩
  rcases propagate_settles hm hprop hn with ⟨hnone, _⟩ | ⟨required', hreq', _, hout, _⟩
  · rw [hreq] at hnone; cases hnone
  · rw [hreq] at hreq'
    cases hreq'
    exact hout

end Model

end NetLowering
