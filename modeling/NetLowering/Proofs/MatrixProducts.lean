import Mathlib
import NetLowering.Proofs.Constants
import NetLowering.Proofs.Decomposition

/-! # Weights of matrix products

The matrix of a matrix product is stored by rows, one for each element of the input, and is to be turned: the
target wants a row for each element of the output. The converter turns the matrix as it is stored, by its own
extents, but compares no more than the number of its elements with what the shapes of the node ask for, and then
writes these over the extents. So the weights are the stored matrix turned (`Constant.Turns`) iff the matrix has
the extents that the shapes ask for, and as many values as these describe (`weights_turned_iff`). -/

namespace NetLowering

/-- The constant is the stored matrix turned, which has a row for each element of the input and a column for each
of the output. -/
structure Constant.Turns (a : Constant) (t : Tensor) (inputs outputs : Int64) : Prop where
  stored : t.dims = [inputs, outputs]
  dims : a.dims = [outputs, inputs]
  value : ∀ i < inputs.toNatClampNeg, ∀ o < outputs.toNatClampNeg,
    ∃ x, t.data[i * outputs.toNatClampNeg + o]? = some x ∧ a.data[o * inputs.toNatClampNeg + i]? = some x

/-! ### Turning a matrix -/

/-- Data that fills a matrix is turned by exchanging its axes. -/
theorem turned_of_transpose {data moved : Array Single} {rows columns : Nat} (hsize : data.size = rows * columns)
    (hrows : 0 < rows) (hcolumns : 0 < columns) (hfit : rows * columns < 2 ^ 63)
    (h : transpose? data [Int64.ofNat rows, Int64.ofNat columns] [1, 0] = some moved) :
    ∀ i < rows, ∀ o < columns, ∃ x, data[i * columns + o]? = some x ∧ moved[o * rows + i]? = some x := by
  have hlt (i o : Nat) (hi : i < rows) (ho : o < columns) : i * columns + o < data.size := by
    have hwithin : Within [i, o] [rows, columns] := .cons hi (.cons ho .nil)
    simpa [ravel, hsize] using ravel_lt hwithin
  have hlists : Lists data [rows, columns] fun index =>
      data.getD (index.getD 0 0 * columns + index.getD 1 0) default := by
    refine lists_iff.mpr ⟨by simpa using hsize, ?_⟩
    simp only [forall_within_cons, forall_within_nil]
    intro i hi o ho
    simp [hlt i o hi ho]
  have hperm : [1, 0].Perm (List.range [rows, columns].length) := List.Perm.swap 0 1 []
  obtain ⟨moved', hmoved', hturned⟩ : ∃ moved', transpose? data ([rows, columns].map Int64.ofNat) [1, 0] =
      some moved' ∧ Lists moved' [columns, rows] fun index =>
        data.getD (index.getD 1 0 * columns + index.getD 0 0) default :=
    hlists.transpose? hperm (by simp [hrows, hcolumns]) (by simpa using hfit) fun _ _ => rfl
  obtain rfl : moved = moved' := Option.some.inj (h.symm.trans hmoved')
  intro i hi o ho
  have hvalue := (lists_iff.mp hturned).2 [o, i] (.cons ho (.cons hi .nil))
  refine ⟨data.getD (i * columns + o) default, ?_, ?_⟩
  · simp [hlt i o hi ho]
  · simpa using hvalue

theorem canonicalAs_rowColumn {t : Tensor} {a : Constant} (h : t.canonicalAs .rowColumn = .ok a) :
    ∃ rows columns, t.dims = [rows, columns] ∧ a.dims = [columns, rows] ∧
      transpose? t.data t.dims [1, 0] = some a.data := by
  unfold Tensor.canonicalAs at h
  split at h
  · cases h
  · rename_i hrank
    have hlength : 2 = t.dims.length := Option.some.inj (of_not_not hrank)
    obtain ⟨rows, columns, hdims⟩ := List.length_eq_two.mp hlength.symm
    dsimp only [Layout.permutation] at h
    split at h
    · cases h
    · rename_i data hmoved
      cases h
      exact ⟨rows, columns, hdims, by rw [hdims]; rfl, hmoved⟩

/-- The values of a matrix in canonical order, under whatever extents, are the stored matrix turned iff these are
its own, exchanged, and it has as many values as they describe. -/
theorem Tensor.Checked.turns_iff {t : Tensor} (ht : t.Checked) (hlen : t.data.size < 2 ^ 63) {a : Constant}
    (ha : t.canonicalAs .rowColumn = .ok a) (inputs outputs : Int64) :
    Constant.Turns ⟨[outputs, inputs], a.data⟩ t inputs outputs ↔
      t.dims = [inputs, outputs] ∧ t.data.size = t.volume := by
  have hvolume (hdims : t.dims = [inputs, outputs]) :
      t.volume = inputs.toNatClampNeg * outputs.toNatClampNeg := by
    rw [Tensor.volume, hdims]
    simp
  have hpos (hdims : t.dims = [inputs, outputs]) : 0 < inputs.toNatClampNeg ∧ 0 < outputs.toNatClampNeg := by
    have hextents := ht.extents_pos
    rw [hdims] at hextents
    exact ⟨hextents _ (by simp), hextents _ (by simp)⟩
  constructor
  · intro h
    refine ⟨h.stored, (ht.size_eq_volume_iff hlen).mpr (lt_of_le_of_lt ?_ hlen)⟩
    -- the last element of the matrix is there
    obtain ⟨hinputs, houtputs⟩ := hpos h.stored
    obtain ⟨x, hx, _⟩ := h.value (inputs.toNatClampNeg - 1) (by omega) (outputs.toNatClampNeg - 1) (by omega)
    obtain ⟨hbound, _⟩ := Array.getElem?_eq_some_iff.mp hx
    calc t.volume
        = inputs.toNatClampNeg * outputs.toNatClampNeg := hvolume h.stored
      _ = (inputs.toNatClampNeg - 1) * outputs.toNatClampNeg + outputs.toNatClampNeg := by
          rw [Nat.sub_one_mul]
          exact (Nat.sub_add_cancel (Nat.le_mul_of_pos_left _ hinputs)).symm
      _ ≤ t.data.size := by omega
  · rintro ⟨hdims, hsize⟩
    refine ⟨hdims, rfl, ?_⟩
    obtain ⟨hinputs, houtputs⟩ := hpos hdims
    obtain ⟨_, _, _, _, hmoved⟩ := canonicalAs_rowColumn ha
    have hfit := (ht.size_eq_volume_iff hlen).mp hsize
    rw [hvolume hdims] at hsize hfit
    rw [ht.dims_eq, hdims] at hmoved
    exact turned_of_transpose hsize hinputs houtputs hfit hmoved

/-! ### The converter -/

/-- What the converter of a matrix product compares, and what it makes of the weights. -/
theorem Context.convertFullyConnected_eq_ok {c : Context} {p : Primitive} (h : c.convertFullyConnected = .ok p) :
    ∃ operand weights, p.kind = .fullyConnected ∧ p.operands = [operand] ∧ c.weight "weights" = .ok weights ∧
      weights.size = p.output.shape.size * operand.buffer.shape.size ∧
      p.constants = [("weights", ⟨[p.output.shape.size, operand.buffer.shape.size], weights.data⟩)] := by
  unfold convertFullyConnected at h
  obtain ⟨operand, _, h⟩ := bind_eq_ok_iff.mp h
  obtain ⟨weights, hweights, h⟩ := bind_eq_ok_iff.mp h
  obtain ⟨output, _, h⟩ := bind_eq_ok_iff.mp h
  dsimp only at h
  split at h
  · cases h
  · rename_i hsize
    cases h
    exact ⟨operand, weights, rfl, rfl, hweights, of_not_not hsize, rfl⟩

theorem Turn.matrixProduct {m : Model} {p : Plan} {n : Node} {c : Context} {applied : Block}
    (ht : Turn m p n c applied) (hkind : n.kind = .fullyConnected) :
    ∃ (q : PlanNode) (here : Context), (p.table.emitted n.id).head? = some q ∧ here.model = m ∧ here.node = n ∧
      here.convertFullyConnected = .ok q.primitive := by
  have hne : p.table.emitted n.id ≠ [] := fun hnil => by
    have hforward := ht.kind_of_emitted_eq_nil (by rw [hkind]; decide) hnil
    rw [hkind] at hforward
    exact absurd hforward (by decide)
  have happlied : applied = Registry.fullyConnected :: Part.block n.partsCarried := by
    rw [ht.applied_eq hne, Plan.emitters, hkind]
  have hemits := ht.emits_of_ne_nil hne
  rw [happlied, Block.elements] at hemits
  generalize p.table.emitted n.id = emitted at hemits
  cases hemits with
  | @cons _ _ _ s q _ hq _ => exact ⟨q, s.here c _, rfl, ht.model, ht.node, hq.built rfl⟩

/-- With the standard registry a matrix product whose weights are read as a matrix emits the values of this
matrix turned, under extents that come from the shapes it reads and writes. These make them the stored matrix
turned iff the extents of the matrix are the same, and it has as many values as they describe. -/
theorem weights_turned_iff (o : Options) (name : String) (m : Model) (p : Plan) (hm : m.Reachable)
    (hreg : o.registry = .standard) (h : plan o name m = .ok p) (n : Node) (hn : n ∈ p.order)
    (hkind : n.kind = .fullyConnected) (t : Tensor) (ht : m.weightTensor n "weights" = .ok t)
    (hlayout : Model.weightLayout n "weights" t = .rowColumn) (hlen : t.data.size < 2 ^ 63) :
    ∃ q operand a inputs outputs rows columns, (p.table.emitted n.id).head? = some q ∧
      q.primitive.kind = .fullyConnected ∧ q.primitive.operands = [operand] ∧
      operand.buffer.shape.size = inputs ∧ q.primitive.output.shape.size = outputs ∧
      q.primitive.constants = [("weights", a)] ∧ a.dims = [outputs, inputs] ∧
      t.dims = [rows, columns] ∧ rows * columns = inputs * outputs ∧
      (Constant.Turns ⟨[columns, rows], a.data⟩ t rows columns ↔ t.data.size = t.volume) ∧
      (a.Turns t inputs outputs ↔ t.dims = [inputs, outputs] ∧ t.data.size = t.volume) := by
  obtain ⟨paddings, start, final, hp⟩ := plan_eq_ok h
  obtain ⟨c, applied, hturn⟩ := hp.turn hm.consistent hreg hn
  obtain ⟨q, here, hq, rfl, rfl, hbuilt⟩ := hturn.matrixProduct hkind
  obtain ⟨operand, weights, hmade, hoperands, hweights, hsize, hconstants⟩ :=
    Context.convertFullyConnected_eq_ok hbuilt
  have hread : t.canonicalAs .rowColumn = .ok weights := by
    obtain ⟨t', ht', hread⟩ := Model.canonicalWeight_eq_ok hweights
    obtain rfl : t = t' := Except.ok.inj (ht.symm.trans ht')
    rwa [hlayout] at hread
  have hturns := (hm.checked t (Model.mem_of_weightTensor ht)).turns_iff hlen hread
  obtain ⟨rows, columns, hdims, hexchanged, _⟩ := canonicalAs_rowColumn hread
  refine ⟨q, operand, _, _, _, rows, columns, hq, hmade, hoperands, rfl, rfl, hconstants, rfl, hdims, ?_, ?_,
    hturns _ _⟩
  · rw [Constant.size, hexchanged, extentProduct_pair] at hsize
    rw [Int64.mul_comm rows, hsize, Int64.mul_comm]
  · rw [hturns rows columns]
    exact and_iff_right hdims

/-- A matrix with a row for each of two elements. -/
def wideMatrix : Tensor := ⟨"wide", [2, 3], .rowColumn, #[⟨0⟩, ⟨1⟩, ⟨2⟩, ⟨3⟩, ⟨4⟩, ⟨5⟩]⟩

/-- A matrix with a column for each of two elements. -/
def tallMatrix : Tensor := ⟨"tall", [3, 2], .rowColumn, #[⟨0⟩, ⟨1⟩, ⟨2⟩, ⟨3⟩, ⟨4⟩, ⟨5⟩]⟩

/-- A matrix product from two elements to three. -/
def productBy (matrix output : String) : Node :=
  { id := matrix, kind := .fullyConnected, inputs := ["x"], outputs := [output]
    weights := [("weights", ⟨matrix, .unset⟩)], outputShapes := [⟨[3], .channel⟩] }

def productPair : List Node :=
  [{ id := "image", kind := .input, outputs := ["x"], outputShapes := [⟨[2], .channel⟩] },
   productBy "wide" "y", productBy "tall" "z"]

theorem productPair_reachable : (Model.mk productPair [wideMatrix, tallMatrix]).Reachable := by
  have hwide : Model.empty.addTensor "wide" (.singles wideMatrix.data) .rowColumn [2, 3] =
      .ok ⟨[], [wideMatrix]⟩ := rfl
  have htall : (Model.mk [] [wideMatrix]).addTensor "tall" (.singles tallMatrix.data) .rowColumn [3, 2] =
      .ok ⟨[], [wideMatrix, tallMatrix]⟩ := rfl
  have htensors : (Model.mk [] [wideMatrix, tallMatrix]).Reachable := .addTensor (.addTensor .empty hwide) htall
  exact htensors.add_nodes ⟨by decide, by decide, by decide, by decide⟩

/-- The sizes that a plan node reads, the size it writes, and its constants. -/
def PlanNode.sizes (q : PlanNode) : List Int64 × Int64 × List (String × Constant) :=
  (q.primitive.operands.map fun operand => operand.buffer.shape.size, q.primitive.output.shape.size,
    q.primitive.constants)

theorem weights_turned_iff_productPair :
    ∃ p wide tall, plan standardOptions "net" ⟨productPair, [wideMatrix, tallMatrix]⟩ = .ok p ∧
      (p.table.emitted "wide").map PlanNode.sizes = [([2], 3, [("weights", wide)])] ∧
      (p.table.emitted "tall").map PlanNode.sizes = [([2], 3, [("weights", tall)])] ∧
      wide.Turns wideMatrix 2 3 ∧ tall.dims = [3, 2] ∧ ¬ tall.Turns tallMatrix 2 3 := by
  obtain ⟨p, hplan, hview⟩ : ∃ p, plan standardOptions "net" ⟨productPair, [wideMatrix, tallMatrix]⟩ = .ok p ∧
      (p.order, (p.table.emitted "wide").map PlanNode.sizes, (p.table.emitted "tall").map PlanNode.sizes) =
        (productPair, [([2], 3, [("weights", ⟨[3, 2], #[⟨0⟩, ⟨3⟩, ⟨1⟩, ⟨4⟩, ⟨2⟩, ⟨5⟩]⟩)])],
          [([2], 3, [("weights", ⟨[3, 2], #[⟨0⟩, ⟨2⟩, ⟨4⟩, ⟨1⟩, ⟨3⟩, ⟨5⟩]⟩)])]) := exists_plan_of_view (by cbv)
  obtain ⟨horder, hviews⟩ := Prod.mk.inj hview
  obtain ⟨hwide, htall⟩ := Prod.mk.inj hviews
  have hboundary (matrix output : String) {t : Tensor} {a : Constant}
      (hn : productBy matrix output ∈ productPair)
      (ht : Model.weightTensor ⟨productPair, [wideMatrix, tallMatrix]⟩ (productBy matrix output) "weights" = .ok t)
      (hlayout : Model.weightLayout (productBy matrix output) "weights" t = .rowColumn)
      (hlen : t.data.size < 2 ^ 63)
      (ha : (p.table.emitted matrix).map PlanNode.sizes = [([2], 3, [("weights", a)])]) :
      a.Turns t 2 3 ↔ t.dims = [2, 3] ∧ t.data.size = t.volume := by
    obtain ⟨q, operand, a', _, _, _, _, hq, _, hoperands, rfl, rfl, hconstants, _, _, _, _, hiff⟩ :=
      weights_turned_iff standardOptions "net" _ p productPair_reachable rfl hplan _ (by rwa [horder]) rfl t ht
        hlayout hlen
    obtain ⟨q', hemitted, hsizes⟩ := List.map_eq_singleton_iff.mp ha
    obtain rfl : q' = q := by simpa [productBy, hemitted] using hq
    simp only [PlanNode.sizes, hoperands, hconstants, List.map_cons, List.map_nil, Prod.mk.injEq, List.cons.injEq,
      and_true, true_and] at hsizes
    obtain ⟨hinputs, houtputs, rfl⟩ := hsizes
    rwa [hinputs, houtputs] at hiff
  refine ⟨p, _, _, hplan, hwide, htall, ?_, rfl, ?_⟩
  · exact (hboundary "wide" "y" (by simp [productPair]) rfl rfl (by decide) hwide).mpr ⟨rfl, by decide⟩
  · intro hturns
    have hdims := ((hboundary "tall" "z" (by simp [productPair]) rfl rfl (by decide) htall).mp hturns).1
    exact absurd hdims (by decide)

end NetLowering
