import Mathlib
import NetLowering.Proofs.Leaves

/-! # Walks along readers

The requirements of a node are collected by a walk from reader to reader that goes into transparent nodes and
gives up when it meets one that it is inside of. `Model.Walk` is that walk by its rules, the nodes it is
inside of being remembered on the way in and forgotten on the way out. It always comes to an end, with the
one outcome that `Model.requirements` computes (`Model.walk_iff`), and it gives up iff there is a loop to get
into, however often its ways part and meet again; so the nodes reported for a padding that loops back are
those from which a loop can be reached (`padding_cycles_reported`).

A node that reaches no loop can be walked from without remembering anything. `Model.Traversal` lists all the
leaves that are met that way, transparent readers being replaced by what is found behind them. Propagation
keeps only the first requirement at each level, but the first of the first is the first of all: a node is to
write what the first leaf of its traversal expects (`lenient_propagate_first_leaf`). -/

namespace NetLowering

namespace Model

/-- The walk over a list of readers, inside of nodes with the given ids: what the readers require, or `none`
if a transparent one is met that the walk is inside of. -/
inductive Walk (m : Model) : List String → List Node → Option (List Padding) → Prop
  | done {inside : List String} : Walk m inside [] (some [])
  | skip {inside : List String} {reader : Node} {rest : List Node} {outcome : Option (List Padding)} :
      reader.kind = .skip → Walk m inside rest outcome → Walk m inside (reader :: rest) outcome
  | ordinary {inside : List String} {reader : Node} {rest : List Node} {outcome : Option (List Padding)} :
      reader.kind ≠ .skip → reader.kind.isTransparent = false → Walk m inside rest outcome →
      Walk m inside (reader :: rest) (outcome.map (reader.inputPadding :: ·))
  | met {inside : List String} {reader : Node} {rest : List Node} :
      reader.kind.isTransparent = true → reader.id ∈ inside → Walk m inside (reader :: rest) none
  | caught {inside : List String} {reader : Node} {rest : List Node} :
      reader.kind.isTransparent = true → reader.id ∉ inside →
      Walk m (reader.id :: inside) (m.readers reader) none → Walk m inside (reader :: rest) none
  | through {inside : List String} {reader : Node} {rest : List Node} {forwarded : List Padding}
      {outcome : Option (List Padding)} :
      reader.kind.isTransparent = true → reader.id ∉ inside →
      Walk m (reader.id :: inside) (m.readers reader) (some forwarded) → Walk m inside rest outcome →
      Walk m inside (reader :: rest) (outcome.map (forwarded.head?.toList ++ ·))

/-- The transparent nodes that a walk is not inside of, each once. -/
structure Outside (m : Model) (inside fresh : List String) : Prop where
  nodup : fresh.Nodup
  mem_iff : ∀ t ∈ m.nodes, t.kind.isTransparent = true → (t.id ∈ fresh ↔ t.id ∉ inside)

variable {m : Model} {n : Node} {inside fresh : List String} {readers : List Node}
  {outcome : Option (List Padding)}

theorem Outside.enter (h : m.Outside inside fresh) (id : String) :
    m.Outside (id :: inside) (fresh.erase id) := by
  refine ⟨h.nodup.erase id, fun t ht htrans => ?_⟩
  rw [h.nodup.mem_erase_iff, h.mem_iff t ht htrans, List.mem_cons, not_or]

theorem outside_start (hm : m.Consistent) (n : Node) : m.Outside [n.id] (m.transparentOthers n) := by
  have hall : m.Outside [] m.transparentIds :=
    ⟨hm.transparentIds_nodup, fun t ht htrans => by simp [mem_transparentIds ht htrans]⟩
  exact hall.enter n.id

/-! ### Every walk ends -/

theorem walk_requirementsOf (h : m.Outside inside fresh) (hsub : ∀ r ∈ readers, r ∈ m.nodes) :
    m.Walk inside readers (m.requirementsOf fresh readers) := by
  fun_induction Model.requirementsOf m fresh readers generalizing inside with
  | case1 fresh => exact .done
  | case2 fresh reader rest hskip ih =>
      exact .skip hskip (ih h fun r hr => hsub r (List.mem_cons_of_mem _ hr))
  | case3 fresh reader rest hskip htrans hfresh hnone ih =>
      have hout := (h.mem_iff reader (hsub reader List.mem_cons_self) htrans).mp hfresh
      have hwalk := ih (h.enter reader.id) fun r hr => mem_nodes_of_mem_readers hr
      rw [hnone] at hwalk
      exact .caught htrans hout hwalk
  | case4 fresh reader rest hskip htrans hfresh forwarded hforwarded ihforward ihrest =>
      have hout := (h.mem_iff reader (hsub reader List.mem_cons_self) htrans).mp hfresh
      have hwalk := ihforward (h.enter reader.id) fun r hr => mem_nodes_of_mem_readers hr
      rw [hforwarded] at hwalk
      exact .through htrans hout hwalk (ihrest h fun r hr => hsub r (List.mem_cons_of_mem _ hr))
  | case5 fresh reader rest hskip htrans hfresh =>
      have hin := mt (h.mem_iff reader (hsub reader List.mem_cons_self) htrans).mpr hfresh
      exact .met htrans (not_not.mp hin)
  | case6 fresh reader rest hskip htrans ih =>
      exact .ordinary hskip (Bool.eq_false_iff.mpr htrans) (ih h fun r hr => hsub r (List.mem_cons_of_mem _ hr))

theorem Walk.eq_requirementsOf (hwalk : m.Walk inside readers outcome) (h : m.Outside inside fresh)
    (hsub : ∀ r ∈ readers, r ∈ m.nodes) : m.requirementsOf fresh readers = outcome := by
  induction hwalk generalizing fresh with
  | done => rw [requirementsOf]
  | skip hskip _ ih =>
      rw [requirementsOf, if_pos hskip]
      exact ih h fun r hr => hsub r (List.mem_cons_of_mem _ hr)
  | ordinary hskip hplain _ ih =>
      rw [requirementsOf, if_neg hskip, if_neg (Bool.eq_false_iff.mp hplain),
        ih h fun r hr => hsub r (List.mem_cons_of_mem _ hr)]
  | @met inside reader rest htrans hin =>
      have hstale := mt (h.mem_iff reader (hsub reader List.mem_cons_self) htrans).mp (not_not.mpr hin)
      rw [requirementsOf, if_neg (ne_skip_of_isTransparent htrans), if_pos htrans, if_neg hstale]
  | @caught inside reader rest htrans hout _ ih =>
      have hfresh := (h.mem_iff reader (hsub reader List.mem_cons_self) htrans).mpr hout
      rw [requirementsOf, if_neg (ne_skip_of_isTransparent htrans), if_pos htrans, if_pos hfresh,
        ih (h.enter reader.id) fun r hr => mem_nodes_of_mem_readers hr]
  | @through inside reader rest forwarded outcome htrans hout _ _ ihforward ihrest =>
      have hfresh := (h.mem_iff reader (hsub reader List.mem_cons_self) htrans).mpr hout
      rw [requirementsOf, if_neg (ne_skip_of_isTransparent htrans), if_pos htrans, if_pos hfresh,
        ihforward (h.enter reader.id) fun r hr => mem_nodes_of_mem_readers hr,
        ihrest h fun r hr => hsub r (List.mem_cons_of_mem _ hr)]

/-- The walk from a node ends, and its outcome is what is computed. -/
theorem walk_iff (hm : m.Consistent) :
    m.Walk [n.id] (m.readers n) outcome ↔ m.requirements n = outcome := by
  have hout := outside_start hm n
  have hsub (r : Node) (hr : r ∈ m.readers n) : r ∈ m.nodes := mem_nodes_of_mem_readers hr
  constructor
  · intro hwalk
    exact hwalk.eq_requirementsOf hout hsub
  · rintro rfl
    exact walk_requirementsOf hout hsub

/-! ### Reports -/

/-- Where transparent readers can be ranked there is no loop, whatever ways part and meet again. -/
theorem not_loops_of_rank {rank : Node → Nat}
    (hrank : ∀ a b, Relation.ReflTransGen m.Relays n a → m.Relays a b → rank b < rank a) : ¬m.Loops n := by
  have hdown : ∀ a b, Relation.ReflTransGen m.Relays n a → Relation.TransGen m.Relays a b →
      rank b < rank a := by
    intro a b hreach h
    induction h with
    | single hab => exact hrank _ _ hreach hab
    | tail hab hbc ih => exact (hrank _ _ (hreach.trans hab.to_reflTransGen) hbc).trans ih
  rintro ⟨t, hnt, htt⟩
  exact lt_irrefl _ (hdown t t hnt.to_reflTransGen htt)

theorem dropped_propagation (hm : m.Consistent) : m.propagation.dropped =
    (m.nodes.filter fun n => m.propagation.isCyclic n.id).map fun n => ⟨n.id, n.kind, .paddingCycle⟩ := by
  have hcyclic : m.propagation.cyclic = m.nodes.filter fun n => m.propagation.isCyclic n.id :=
    List.filter_congr fun n hn => (isCyclic_propagation hm hn).symm
  rw [← hcyclic]
  rfl

theorem dropped_ids_nodup (hm : m.Consistent) : (m.propagation.dropped.map Dropped.id).Nodup := by
  rw [dropped_propagation hm, List.map_map]
  exact hm.ids_nodup.sublist (List.filter_sublist.map Node.id)

end Model

/-- The walk from any node of a model comes to an end, with one outcome. Propagation marks a node as cyclic
iff that walk gives up, which is iff transparent readers lead from the node to one that they lead back to; so
it marks none whose transparent readers can be ranked. It reports each cyclic node once, in the order of
insertion. -/
theorem padding_cycles_reported (m : Model) (hm : m.Reachable) :
    (∀ n ∈ m.nodes, ∃! outcome, m.Walk [n.id] (m.readers n) outcome) ∧
    (∃ p, propagate false m = .ok p) ∧ ∀ strict p, propagate strict m = .ok p →
      (∀ n ∈ m.nodes, p.isCyclic n.id = true ↔ m.Walk [n.id] (m.readers n) none) ∧
      (∀ n ∈ m.nodes, p.isCyclic n.id = true ↔ m.Loops n) ∧
      (∀ n ∈ m.nodes, ∀ rank : Node → Nat, (∀ a b, Relation.ReflTransGen m.Relays n a → m.Relays a b →
        rank b < rank a) → p.isCyclic n.id = false) ∧
      p.dropped = (m.nodes.filter fun n => p.isCyclic n.id).map (fun n => ⟨n.id, n.kind, .paddingCycle⟩) ∧
      (p.dropped.map Dropped.id).Nodup := by
  have hcons := hm.consistent
  refine ⟨fun n hn => ?_, ⟨m.propagation, propagate_eq_ok_iff.mpr ⟨nofun, rfl⟩⟩, ?_⟩
  · refine ⟨m.requirements n, (Model.walk_iff hcons).mpr rfl, fun outcome hwalk => ?_⟩
    exact ((Model.walk_iff hcons).mp hwalk).symm
  · intro strict p hp
    obtain ⟨_, rfl⟩ := propagate_eq_ok_iff.mp hp
    refine ⟨fun n hn => ?_, fun n hn => Model.isCyclic_iff hcons hn, fun n hn rank hrank => ?_,
      Model.dropped_propagation hcons, Model.dropped_ids_nodup hcons⟩
    · rw [Model.walk_iff hcons, Model.isCyclic_propagation hcons hn, Option.isNone_iff_eq_none]
    · rw [Model.isCyclic_eq_false_iff hcons hn]
      exact Model.not_loops_of_rank hrank

/-- Two ways through transparent nodes that meet again, one of them twice, and further on a loop of transparent
nodes. -/
def braidedImage : List Node :=
  [{ id := "image", kind := .input, outputs := ["x"], outputShapes := [⟨[4, 4, 3], .rowColumnChannel⟩] },
   { id := "sink", kind := .reorder, inputs := ["x"], outputs := ["w"] },
   { id := "probe", kind := .skip, inputs := ["x"] },
   { id := "alias", kind := .passthrough, inputs := ["x"], outputs := ["y"] },
   { id := "other", kind := .passthrough, inputs := ["x"], outputs := ["v"] },
   { id := "near", kind := .relu, inputs := ["x"], outputs := ["a"], inputPadding := ⟨2, .zeros⟩ },
   { id := "joined", kind := .splice, inputs := ["y", "v", "y"], outputs := ["z"] },
   { id := "wide", kind := .relu, inputs := ["z"], outputs := ["b"], inputPadding := ⟨1, .min⟩ },
   { id := "lead", kind := .relu, inputs := ["b"], outputs := ["q"] },
   { id := "there", kind := .splice, inputs := ["q", "back"], outputs := ["forth"] },
   { id := "here", kind := .passthrough, inputs := ["forth"], outputs := ["back"] }]

theorem reachable_braidedImage : (Model.mk braidedImage []).Reachable :=
  Model.reachable_of_consistent ⟨by decide, by decide, by decide, by decide⟩

/-- The loop is reported with the node that leads into it, and the braid is not. -/
theorem padding_cycles_braidedImage : (Model.mk braidedImage []).Reachable ∧
    ∃ p, propagate false ⟨braidedImage, []⟩ = .ok p ∧ p.dropped.map Dropped.id = ["lead", "there", "here"] ∧
      (Model.mk braidedImage []).Loops braidedImage[8] ∧ ¬(Model.mk braidedImage []).Loops braidedImage[0] := by
  obtain ⟨_, ⟨p, hp⟩, hreported⟩ := padding_cycles_reported ⟨braidedImage, []⟩ reachable_braidedImage
  obtain ⟨_, hloops, _⟩ := hreported false p hp
  obtain ⟨_, rfl⟩ := propagate_eq_ok_iff.mp hp
  refine ⟨reachable_braidedImage, _, hp, by cbv, ?_, ?_⟩
  · rw [← hloops _ (List.getElem_mem _)]
    cbv
  · rw [← hloops _ (List.getElem_mem _), Bool.not_eq_true]
    cbv

/-! ### Traversals -/

namespace Model

/-- The leaves met behind a list of readers, depth first: `skip` nodes are passed over, and a transparent
reader is replaced by what is met behind it. -/
inductive Traversal (m : Model) : List Node → List Node → Prop
  | nil : Traversal m [] []
  | skip {reader : Node} {rest leaves : List Node} :
      reader.kind = .skip → Traversal m rest leaves → Traversal m (reader :: rest) leaves
  | leaf {reader : Node} {rest leaves : List Node} :
      reader.kind ≠ .skip → reader.kind.isTransparent = false → Traversal m rest leaves →
      Traversal m (reader :: rest) (reader :: leaves)
  | through {reader : Node} {rest inner leaves : List Node} :
      reader.kind.isTransparent = true → Traversal m (m.readers reader) inner → Traversal m rest leaves →
      Traversal m (reader :: rest) (inner ++ leaves)

/-- The node is read by one transparent node, any number of times, and otherwise by `skip` nodes alone. -/
def SoleRelay (m : Model) (n t : Node) : Prop :=
  m.Relays n t ∧ ∀ r ∈ m.readers n, r.kind ≠ .skip → r = t

variable {m : Model} {n t : Node} {fresh : List String} {readers leaves inner : List Node}
  {required : List Padding}

theorem Traversal.unique {other : List Node} (h : m.Traversal readers leaves)
    (h' : m.Traversal readers other) : other = leaves := by
  induction h generalizing other with
  | nil => cases h'; rfl
  | skip hskip _ ih =>
      cases h' with
      | skip _ h' => exact ih h'
      | leaf hskip' => exact absurd hskip hskip'
      | through htrans => exact absurd hskip (ne_skip_of_isTransparent htrans)
  | leaf hskip hplain _ ih =>
      cases h' with
      | skip hskip' => exact absurd hskip' hskip
      | leaf _ _ h' => rw [ih h']
      | through htrans => rw [hplain] at htrans; cases htrans
  | through htrans _ _ ihinner ih =>
      cases h' with
      | skip hskip => exact absurd hskip (ne_skip_of_isTransparent htrans)
      | leaf _ hplain => rw [hplain] at htrans; cases htrans
      | through _ hinner h' => rw [ihinner hinner, ih h']

/-- What does not loop back can be traversed, and the first requirement is that of the first leaf. -/
theorem exists_traversal (h : m.requirementsOf fresh readers = some required) :
    ∃ leaves, m.Traversal readers leaves ∧ required.head? = leaves.head?.map Node.inputPadding := by
  fun_induction Model.requirementsOf m fresh readers generalizing required with
  | case1 =>
      cases h
      exact ⟨[], .nil, rfl⟩
  | case2 fresh reader rest hskip ih =>
      obtain ⟨leaves, hleaves, hhead⟩ := ih h
      exact ⟨leaves, .skip hskip hleaves, hhead⟩
  | case3 => cases h
  | case4 fresh reader rest _ htrans _ forwarded hforwarded ihforward ihrest =>
      obtain ⟨later, hlater, rfl⟩ := Option.map_eq_some_iff.mp h
      obtain ⟨inner, hinner, hfirst⟩ := ihforward hforwarded
      obtain ⟨leaves, hleaves, hhead⟩ := ihrest hlater
      refine ⟨inner ++ leaves, .through htrans hinner hleaves, ?_⟩
      -- what is handed on is empty only if nothing was met behind the reader
      rw [List.head?_append, hfirst, List.head?_append, hhead]
      cases inner with
      | nil => simp
      | cons first rest => simp
  | case5 => cases h
  | case6 fresh reader rest hskip htrans ih =>
      obtain ⟨later, hlater, rfl⟩ := Option.map_eq_some_iff.mp h
      obtain ⟨leaves, hleaves, _⟩ := ih hlater
      exact ⟨reader :: leaves, .leaf hskip (Bool.eq_false_iff.mpr htrans) hleaves, rfl⟩

theorem outputPadding_eq_first (hm : m.Consistent) (hn : n ∈ m.nodes)
    (hcyclic : m.propagation.isCyclic n.id = false) : ∃ leaves, m.Traversal (m.readers n) leaves ∧
      m.propagation.outputPadding n.id = (leaves.head?.map Node.inputPadding).getD .absent ∧
      (m.requirements n = some [] ↔ leaves = []) := by
  rw [isCyclic_propagation hm hn, Option.isNone_eq_false_iff, Option.isSome_iff_exists] at hcyclic
  obtain ⟨required, hreq⟩ := hcyclic
  obtain ⟨leaves, hleaves, hhead⟩ := exists_traversal hreq
  refine ⟨leaves, hleaves, ?_, ?_⟩
  · rw [outputPadding_propagation hm hn hreq, hhead]
  · rw [hreq, Option.some_inj, ← List.head?_eq_none_iff, hhead, Option.map_eq_none_iff,
      List.head?_eq_none_iff]

theorem first_eq_absent_iff : (leaves.head?.map Node.inputPadding).getD .absent = .absent ↔
    leaves = [] ∨ ∃ leaf, leaves.head? = some leaf ∧ leaf.inputPadding = .absent := by
  cases leaves with
  | nil => simp
  | cons first rest => simp

/-- Behind one transparent node, read any number of times, its leaves are met as many times. -/
theorem Traversal.of_sole (h : m.Traversal readers leaves) (ht : m.Traversal (m.readers t) inner)
    (htrans : t.kind.isTransparent = true) (hsole : ∀ r ∈ readers, r.kind ≠ .skip → r = t) :
    ∃ k, leaves = (List.replicate k inner).flatten ∧ (t ∈ readers → 0 < k) := by
  induction h with
  | nil => exact ⟨0, rfl, nofun⟩
  | @skip reader rest leaves hskip _ ih =>
      obtain ⟨k, hk, hpos⟩ := ih fun r hr => hsole r (List.mem_cons_of_mem _ hr)
      refine ⟨k, hk, fun hmem => hpos ?_⟩
      rcases List.mem_cons.mp hmem with rfl | hmem
      · exact absurd hskip (ne_skip_of_isTransparent htrans)
      · exact hmem
  | @leaf reader rest leaves hskip hplain _ _ =>
      rw [hsole reader List.mem_cons_self hskip, htrans] at hplain
      cases hplain
  | @through reader rest found leaves hreader hfound _ _ ih =>
      obtain ⟨k, rfl, _⟩ := ih fun r hr => hsole r (List.mem_cons_of_mem _ hr)
      have hsame := hsole reader List.mem_cons_self (ne_skip_of_isTransparent hreader)
      rw [hsame] at hfound
      rw [ht.unique hfound]
      exact ⟨k + 1, by rw [List.replicate_succ, List.flatten_cons], fun _ => Nat.succ_pos k⟩

theorem head?_flatten_replicate {α : Type} {k : Nat} (hk : 0 < k) (xs : List α) :
    (List.replicate k xs).flatten.head? = xs.head? := by
  obtain ⟨k, rfl⟩ := Nat.exists_eq_succ_of_ne_zero hk.ne'
  rw [List.replicate_succ, List.flatten_cons, List.head?_append]
  cases xs <;> simp

/-- A node and its only reader, if that is transparent, are to write the same, and neither is cyclic if the
first is not. -/
theorem SoleRelay.outputPadding_eq (hm : m.Consistent) (hn : n ∈ m.nodes) (h : m.SoleRelay n t)
    (hcyclic : m.propagation.isCyclic n.id = false) :
    m.propagation.isCyclic t.id = false ∧
      m.propagation.outputPadding t.id = m.propagation.outputPadding n.id := by
  have ht : t ∈ m.nodes := mem_nodes_of_mem_readers h.1.1
  have hcyclic' : m.propagation.isCyclic t.id = false := by
    rw [isCyclic_eq_false_iff hm ht]
    rintro ⟨u, htu, huu⟩
    exact (isCyclic_eq_false_iff hm hn).mp hcyclic ⟨u, .head h.1 htu, huu⟩
  obtain ⟨leaves, hleaves, hpad, _⟩ := outputPadding_eq_first hm hn hcyclic
  obtain ⟨inner, hinner, hpad', _⟩ := outputPadding_eq_first hm ht hcyclic'
  obtain ⟨k, rfl, hpos⟩ := hleaves.of_sole hinner h.1.2 h.2
  refine ⟨hcyclic', ?_⟩
  rw [hpad, hpad', head?_flatten_replicate (hpos h.1.1)]

end Model

/-- The lenient pass never fails. A node that is not cyclic can be traversed in one way, and is to write what
the first leaf expects. It has no requirement iff no leaf is met, and it is to write no border iff no leaf is met
or the first one expects none. Hence nodes along a chain of transparent nodes, each the only reader of the one
before, are to write the same. -/
theorem lenient_propagate_first_leaf (m : Model) (hm : m.Reachable) :
    ∃ p, propagate false m = .ok p ∧
      (∀ n ∈ m.nodes, p.isCyclic n.id = false →
        ∃ leaves, (∀ other, m.Traversal (m.readers n) other ↔ other = leaves) ∧
          p.outputPadding n.id = (leaves.head?.map Node.inputPadding).getD .absent ∧
          (m.requirements n = some [] ↔ leaves = []) ∧
          (p.outputPadding n.id = .absent ↔
            leaves = [] ∨ ∃ leaf, leaves.head? = some leaf ∧ leaf.inputPadding = .absent)) ∧
      ∀ n ∈ m.nodes, p.isCyclic n.id = false → ∀ t, Relation.TransGen m.SoleRelay n t →
        p.outputPadding t.id = p.outputPadding n.id := by
  have hcons := hm.consistent
  refine ⟨m.propagation, propagate_eq_ok_iff.mpr ⟨nofun, rfl⟩, fun n hn hcyclic => ?_, ?_⟩
  · obtain ⟨leaves, hleaves, hpad, hnone⟩ := Model.outputPadding_eq_first hcons hn hcyclic
    refine ⟨leaves, fun other => ⟨fun h => hleaves.unique h, ?_⟩, hpad, hnone, ?_⟩
    · rintro rfl
      exact hleaves
    · rw [hpad]
      exact Model.first_eq_absent_iff
  · intro n hn hcyclic t hchain
    have hkept : m.propagation.isCyclic t.id = false ∧
        m.propagation.outputPadding t.id = m.propagation.outputPadding n.id := by
      -- along the chain, which grows at its far end
      induction hchain with
      | single hsole => exact hsole.outputPadding_eq hcons hn hcyclic
      | @tail t u hchain hsole ih =>
          have ht : t ∈ m.nodes := by
            obtain ⟨_, _, hlast⟩ := Relation.TransGen.tail'_iff.mp hchain
            exact Model.mem_nodes_of_mem_readers hlast.1.1
          obtain ⟨hcyclic', hsame⟩ := hsole.outputPadding_eq hcons ht ih.1
          exact ⟨hcyclic', hsame.trans ih.2⟩
    exact hkept.2

/-- The first leaf of the braid is the one at its end, behind two transparent nodes, and not the reader next to
the image. -/
theorem lenient_propagate_braidedImage : (Model.mk braidedImage []).Reachable ∧
    ∃ p, propagate false ⟨braidedImage, []⟩ = .ok p ∧ p.isCyclic "image" = false ∧
      p.outputPadding "image" = ⟨1, .min⟩ ∧ p.outputPadding "joined" = p.outputPadding "alias" := by
  obtain ⟨p, hp, hfirst, hchain⟩ := lenient_propagate_first_leaf ⟨braidedImage, []⟩ reachable_braidedImage
  obtain ⟨_, rfl⟩ := propagate_eq_ok_iff.mp hp
  have himage : (Model.mk braidedImage []).readers braidedImage[0] = [braidedImage[1], braidedImage[2],
      braidedImage[3], braidedImage[4], braidedImage[5]] := by cbv
  have hsink : (Model.mk braidedImage []).readers braidedImage[1] = [] := by cbv
  have halias : (Model.mk braidedImage []).readers braidedImage[3] =
      [braidedImage[6], braidedImage[6]] := by cbv
  have hother : (Model.mk braidedImage []).readers braidedImage[4] = [braidedImage[6]] := by cbv
  have hjoined : (Model.mk braidedImage []).readers braidedImage[6] = [braidedImage[7]] := by cbv
  have hend : (Model.mk braidedImage []).Traversal
      ((Model.mk braidedImage []).readers braidedImage[6]) [braidedImage[7]] := by
    rw [hjoined]
    exact .leaf (by decide) rfl .nil
  have hleaves : (Model.mk braidedImage []).Traversal ((Model.mk braidedImage []).readers braidedImage[0])
      ([] ++ (([braidedImage[7]] ++ ([braidedImage[7]] ++ [])) ++
        (([braidedImage[7]] ++ []) ++ [braidedImage[5]]))) := by
    rw [himage]
    refine .through rfl (by rw [hsink]; exact .nil) (.skip rfl (.through rfl ?_ (.through rfl ?_ ?_)))
    · rw [halias]
      exact .through rfl hend (.through rfl hend .nil)
    · rw [hother]
      exact .through rfl hend .nil
    · exact .leaf (by decide) rfl .nil
  have hcyclic : (Model.mk braidedImage []).propagation.isCyclic "image" = false := by cbv
  have hcyclic' : (Model.mk braidedImage []).propagation.isCyclic "alias" = false := by cbv
  refine ⟨reachable_braidedImage, _, hp, hcyclic, ?_, ?_⟩
  · obtain ⟨leaves, honly, hpad, _⟩ := hfirst braidedImage[0] (List.getElem_mem _) hcyclic
    rw [← (honly _).mp hleaves] at hpad
    exact hpad
  · refine hchain braidedImage[3] (List.getElem_mem _) hcyclic' braidedImage[6] (.single ⟨⟨?_, rfl⟩, ?_⟩)
    · rw [halias]
      exact List.mem_cons_self
    · rw [halias]
      simp

end NetLowering
