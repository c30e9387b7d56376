import Mathlib
import NetLowering.Tensor.Axes

/-! # Positions and multi-indices

`ravel` is the row-major position of a multi-index, the inverse of `unravel` on the indices `Within` the
extents (`unravel_ravel`, `ravel_unravel`). The walk by `nextIndex` carries from axis to axis and so comes to the
index at each position in its turn (`advance_unravel`, `iterate_nextIndex`). Stepping along the axes in another
order leads from the index so listed to the position of the index (`offset_permute`), so that data which `Lists`
the values of a function of the indices lists them along the moved axes after `transpose?`
(`Lists.transpose?`). -/

namespace NetLowering

/-! ### Row-major order -/

/-- The row-major position of a multi-index. -/
def ravel : List Nat → List Nat → Nat
  | _ :: rest, i :: index => i * rest.prod + ravel rest index
  | _, _ => 0

/-- The multi-index at a row-major position. -/
def unravel : List Nat → Nat → List Nat
  | [], _ => []
  | _ :: rest, position => position / rest.prod :: unravel rest (position % rest.prod)

/-- A multi-index into data of the given extents. -/
abbrev Within (index dims : List Nat) : Prop := List.Forall₂ (· < ·) index dims

@[simp] theorem forall_within_nil {P : List Nat → Prop} : (∀ index, Within index [] → P index) ↔ P [] := by
  simp only [Within, List.forall₂_nil_right_iff, forall_eq]

@[simp] theorem forall_within_cons {P : List Nat → Prop} {d : Nat} {dims : List Nat} :
    (∀ index, Within index (d :: dims) → P index) ↔
      ∀ i < d, ∀ index, Within index dims → P (i :: index) := by
  constructor
  · intro h i hi index hindex
    exact h _ (.cons hi hindex)
  · rintro h _ (_ | ⟨hi, hindex⟩)
    exact h _ hi _ hindex

theorem ravel_lt {index dims : List Nat} (h : Within index dims) : ravel dims index < dims.prod := by
  induction h with
  | nil => exact Nat.one_pos
  | @cons i d index rest hi _ ih =>
      rw [ravel, List.prod_cons]
      calc i * rest.prod + ravel rest index < (i + 1) * rest.prod := by rw [Nat.succ_mul]; omega
        _ ≤ d * rest.prod := Nat.mul_le_mul_right _ hi

theorem unravel_cons_add {d i position : Nat} {rest : List Nat} (h : position < rest.prod) :
    unravel (d :: rest) (i * rest.prod + position) = i :: unravel rest position := by
  rw [unravel, Nat.add_comm, Nat.add_mul_div_right _ _ (by omega), Nat.div_eq_of_lt h,
    Nat.add_mul_mod_self_right, Nat.mod_eq_of_lt h, Nat.zero_add]

theorem unravel_zero (dims : List Nat) : unravel dims 0 = List.replicate dims.length 0 := by
  induction dims with
  | nil => rfl
  | cons d rest ih =>
      rw [unravel, Nat.zero_div, Nat.zero_mod, ih, List.length_cons, List.replicate_succ]

theorem unravel_ravel {index dims : List Nat} (h : Within index dims) :
    unravel dims (ravel dims index) = index := by
  induction h with
  | nil => rfl
  | @cons i d index rest _ hrest ih =>
      rw [ravel, unravel_cons_add (ravel_lt hrest), ih]

theorem ravel_unravel {dims : List Nat} {position : Nat} (h : position < dims.prod) :
    Within (unravel dims position) dims ∧ ravel dims (unravel dims position) = position := by
  induction dims generalizing position with
  | nil => exact ⟨.nil, by rw [List.prod_nil] at h; simp only [ravel]; omega⟩
  | cons d rest ih =>
      rw [List.prod_cons] at h
      have hpos : 0 < rest.prod := Nat.pos_of_mul_pos_left (Nat.zero_lt_of_lt h)
      obtain ⟨hwithin, heq⟩ := ih (Nat.mod_lt position hpos)
      rw [unravel, ravel]
      refine ⟨.cons (Nat.div_lt_of_lt_mul (by rwa [Nat.mul_comm])) hwithin, ?_⟩
      rw [heq, Nat.mul_comm]
      exact Nat.div_add_mod position rest.prod

theorem ravel_eq_foldl {index dims : List Nat} (h : Within index dims) :
    ravel dims index = (index.zip dims).foldl (fun position x => position * x.2 + x.1) 0 := by
  -- on the axes, for every position that those before them lead to
  have hfold : ∀ p, (index.zip dims).foldl (fun position x => position * x.2 + x.1) p
      = p * dims.prod + ravel dims index := by
    induction h with
    | nil => intro p; rw [List.prod_nil, Nat.mul_one]; rfl
    | cons _ _ ih =>
        intro p
        rw [List.zip_cons_cons, List.foldl_cons, ih, List.prod_cons, ravel]
        ring
  rw [hfold, Nat.zero_mul, Nat.zero_add]

/-- The position as a sum over the axes, which may be taken in any order. -/
theorem ravel_eq_sum {index dims : List Nat} (h : Within index dims) :
    ravel dims index =
      ((List.range dims.length).map fun a => index.getD a 0 * (dims.drop (a + 1)).prod).sum := by
  induction h with
  | nil => rfl
  | cons _ _ ih =>
      rw [ravel, ih, List.length_cons, List.range_succ_eq_map, List.map_cons, List.sum_cons, List.map_map]
      rfl

/-! ### Extents as machine integers -/

theorem extentProduct_ofNat (dims : List Nat) :
    extentProduct (dims.map Int64.ofNat) = Int64.ofNat dims.prod := by
  -- on the extents, for every product that stands before them
  have hfold : ∀ a : Nat, (dims.map Int64.ofNat).foldl (· * ·) (Int64.ofNat a)
      = Int64.ofNat (a * dims.prod) := by
    induction dims with
    | nil => intro a; rw [List.prod_nil, Nat.mul_one]; rfl
    | cons d rest ih =>
        intro a
        rw [List.map_cons, List.foldl_cons, ← Int64.ofNat_mul, ih, List.prod_cons, Nat.mul_assoc]
  have hone := hfold 1
  rwa [Nat.one_mul] at hone

theorem strides_getD {dims : List Int64} {a : Nat} (h : a < dims.length) :
    (strides dims).getD a 0 = extentProduct (dims.drop (a + 1)) := by
  induction dims generalizing a with
  | nil => cases h
  | cons d rest ih =>
      cases a with
      | zero => rfl
      | succ a => exact ih (Nat.lt_of_succ_lt_succ h)

theorem foldl_add_ofNat {α : Type} (xs : List α) (f : α → Nat) :
    (xs.map fun x => Int64.ofNat (f x)).foldl (· + ·) 0 = Int64.ofNat (xs.map f).sum := by
  have hfold : ∀ s : Nat, (xs.map fun x => Int64.ofNat (f x)).foldl (· + ·) (Int64.ofNat s)
      = Int64.ofNat (s + (xs.map f).sum) := by
    induction xs with
    | nil => intro s; rfl
    | cons x rest ih =>
        intro s
        rw [List.map_cons, List.foldl_cons, ← Int64.ofNat_add, ih, List.map_cons, List.sum_cons,
          Nat.add_assoc]
  have hzero := hfold 0
  rwa [Nat.zero_add] at hzero

theorem toNatClampNeg_map_ofNat {dims : List Nat} (h : ∀ d ∈ dims, d < 2 ^ 63) :
    (dims.map Int64.ofNat).map Int64.toNatClampNeg = dims := by
  rw [List.map_map]
  exact (List.map_congr_left fun d hd => Int64.toNatClampNeg_ofNat_of_lt (h d hd)).trans (List.map_id _)

theorem extent_lt {dims : List Nat} (hpos : ∀ d ∈ dims, 0 < d) (hfit : dims.prod < 2 ^ 63) {d : Nat}
    (hd : d ∈ dims) : d < 2 ^ 63 :=
  (Nat.le_of_dvd (List.prod_pos hpos) (List.dvd_prod hd)).trans_lt hfit

theorem map_ofNat_toNatClampNeg {dims : List Int64} (h : ∀ d ∈ dims, 0 < d) :
    (dims.map Int64.toNatClampNeg).map Int64.ofNat = dims := by
  rw [List.map_map]
  conv_rhs => rw [← List.map_id dims]
  exact List.map_congr_left fun d hd => Int64.ofNat_toNatClampNeg d (Int64.le_of_lt (h d hd))

theorem toNatClampNeg_pos {dims : List Int64} (h : ∀ d ∈ dims, 0 < d) :
    ∀ d ∈ dims.map Int64.toNatClampNeg, 0 < d := by
  intro d hd
  obtain ⟨e, he, rfl⟩ := List.mem_map.mp hd
  exact (Int64.toNatClampNeg_pos_iff e).mpr (h e he)

/-- Positive extents multiply as natural numbers do, but for wrapping around. -/
theorem extentProduct_of_pos {dims : List Int64} (h : ∀ d ∈ dims, 0 < d) :
    extentProduct dims = Int64.ofNat (dims.map Int64.toNatClampNeg).prod := by
  rw [← extentProduct_ofNat, map_ofNat_toNatClampNeg h]

/-! ### Axes in another order -/

/-- The entries of a list of extents, or of an index, in the order of the axes `perm`. -/
def permute (perm xs : List Nat) : List Nat := perm.map (xs.getD · 0)

/-- The order of the axes that undoes another: the place that each axis has in that one. -/
def inverseOrder (perm : List Nat) : List Nat := (List.range perm.length).map perm.idxOf

theorem permuteDims_ofNat (dims perm : List Nat) :
    permuteDims (dims.map Int64.ofNat) perm = (permute perm dims).map Int64.ofNat := by
  rw [permuteDims, permute, List.map_map]
  refine List.map_congr_left fun a _ => ?_
  simp only [List.getD_eq_getElem?_getD, List.getElem?_map, Function.comp_apply]
  cases dims[a]? <;> rfl

section Permuted
variable {dims perm : List Nat} (hperm : perm.Perm (List.range dims.length))
include hperm

theorem length_order : perm.length = dims.length := by
  rw [hperm.length_eq, List.length_range]

theorem nodup_order : perm.Nodup := hperm.nodup_iff.mpr List.nodup_range

theorem axis_lt {a : Nat} (ha : a ∈ perm) : a < dims.length := List.mem_range.mp (hperm.subset ha)

theorem permute_perm : (permute perm dims).Perm dims := by
  have hid : (List.range dims.length).map (dims.getD · 0) = dims :=
    List.ext_getElem (by simp) fun i hi _ => by simp_all
  rw [permute]
  exact (hperm.map _).trans (.of_eq hid)

theorem permute_within {index : List Nat} (h : Within index dims) :
    Within (permute perm index) (permute perm dims) := by
  rw [permute, permute, Within, List.forall₂_map_left_iff, List.forall₂_map_right_iff, List.forall₂_same]
  intro a ha
  have ha : a < dims.length := axis_lt hperm ha
  rw [List.getD_eq_getElem _ _ (h.length_eq ▸ ha), List.getD_eq_getElem _ _ ha]
  exact h.get (h.length_eq ▸ ha) ha

theorem length_permute (xs : List Nat) : (permute perm xs).length = dims.length := by
  rw [permute, List.length_map, length_order hperm]

theorem inverseOrder_perm : (inverseOrder perm).Perm (List.range dims.length) := by
  have hplaces : perm.map perm.idxOf = List.range dims.length :=
    List.ext_getElem (by simp [length_order hperm]) fun i _ _ => by simp [(nodup_order hperm).idxOf_getElem]
  rw [inverseOrder, length_order hperm]
  exact (hperm.map _).symm.trans (.of_eq hplaces)

theorem permute_inverseOrder_permute {xs : List Nat} (hxs : xs.length = dims.length) :
    permute (inverseOrder perm) (permute perm xs) = xs := by
  refine List.ext_getElem (by simp [permute, inverseOrder, length_order hperm, hxs]) fun a _ ha => ?_
  have hmem : a ∈ perm := hperm.mem_iff.mpr (List.mem_range.mpr (hxs ▸ ha))
  have hat := List.idxOf_lt_length_of_mem hmem
  simp [permute, inverseOrder, hat, ha]

theorem permute_permute_inverseOrder {xs : List Nat} (hxs : xs.length = dims.length) :
    permute perm (permute (inverseOrder perm) xs) = xs := by
  have hlen := length_order hperm
  refine List.ext_getElem (by simp [permute, hlen, hxs]) fun i _ hi => ?_
  have hi' : i < perm.length := by rw [hlen, ← hxs]; exact hi
  have ha : perm[i] < perm.length := hlen ▸ axis_lt hperm (List.getElem_mem hi')
  simp [permute, inverseOrder, ha, (nodup_order hperm).idxOf_getElem, hi]

theorem exists_permute_eq {index : List Nat} (h : Within index (permute perm dims)) :
    ∃ source, Within source dims ∧ permute perm source = index := by
  have hlen := length_permute hperm dims
  have hwithin : Within (permute (inverseOrder perm) index) (permute (inverseOrder perm) (permute perm dims)) :=
    permute_within (hlen ▸ inverseOrder_perm hperm) h
  rw [permute_inverseOrder_permute hperm rfl] at hwithin
  exact ⟨_, hwithin, permute_permute_inverseOrder hperm (h.length_eq.trans hlen)⟩

/-- Stepping along the moved axes leads to where the element lies. -/
theorem offset_permute {index : List Nat} (h : Within index dims) :
    offset (permuteDims (strides (dims.map Int64.ofNat)) perm) ((permute perm index).map Int64.ofNat)
      = Int64.ofNat (ravel dims index) := by
  have hterm : ∀ a ∈ perm,
      Int64.ofNat (index.getD a 0) * (strides (dims.map Int64.ofNat)).getD a 0
        = Int64.ofNat (index.getD a 0 * (dims.drop (a + 1)).prod) := by
    intro a ha
    have ha : a < dims.length := axis_lt hperm ha
    rw [strides_getD (by rwa [List.length_map]), ← List.map_drop, extentProduct_ofNat, Int64.ofNat_mul]
  rw [offset, permuteDims, permute, List.map_map, List.zipWith_map, List.zipWith_self]
  simp only [Function.comp_apply]
  rw [List.map_congr_left hterm, foldl_add_ofNat, ravel_eq_sum h, (hperm.map _).sum_eq]

end Permuted

/-! ### Walking through the indices -/

section Walk
variable {extents : List Nat} (hfit : ∀ d ∈ extents, d < 2 ^ 63)
include hfit

/-- The index after the one at a position is at the next position; after the last one it starts over. -/
theorem advance_unravel {position : Nat} (h : position < extents.prod) :
    advance (extents.map Int64.ofNat) ((unravel extents position).map Int64.ofNat) =
      if position + 1 < extents.prod then ((unravel extents (position + 1)).map Int64.ofNat, false)
      else (List.replicate extents.length 0, true) := by
  induction extents generalizing position with
  | nil =>
      rw [List.prod_nil] at h ⊢
      rw [if_neg (by omega)]
      rfl
  | cons d rest ih =>
      obtain ⟨hd, hrest⟩ := List.forall_mem_cons.mp hfit
      rw [List.prod_cons] at h ⊢
      have hpos : 0 < rest.prod := Nat.pos_of_mul_pos_left (Nat.zero_lt_of_lt h)
      -- the index into the first axis, and the position along the others
      obtain ⟨i, place, hplace, rfl⟩ : ∃ i place, place < rest.prod ∧ position = i * rest.prod + place :=
        ⟨_, _, Nat.mod_lt position hpos, (Nat.div_add_mod' position rest.prod).symm⟩
      have hi : i < d := Nat.lt_of_mul_lt_mul_right (a := rest.prod) (by omega)
      have hcarry : Int64.ofNat i + 1 < Int64.ofNat d ↔ i + 1 < d := by
        rw [← Int64.ofNat_lt_iff_lt (by omega : i + 1 < 2 ^ 63) hd, Int64.ofNat_add]
        rfl
      have hend : (i + 1) * rest.prod ≤ d * rest.prod := Nat.mul_le_mul_right _ hi
      rw [Nat.succ_mul] at hend
      rw [unravel_cons_add hplace, List.map_cons, List.map_cons, advance, ih hrest hplace]
      by_cases hroom : place + 1 < rest.prod
      · rw [if_pos hroom, if_pos (by omega), Nat.add_assoc, unravel_cons_add hroom]
        rfl
      · -- the other axes start over, and the first one moves on if it can
        have hnext : i * rest.prod + place + 1 = (i + 1) * rest.prod + 0 := by rw [Nat.succ_mul]; omega
        rw [if_neg hroom, hnext, unravel_cons_add hpos, unravel_zero]
        simp only [hcarry, Nat.add_zero, Nat.mul_lt_mul_right hpos]
        split
        · simp
        · rfl

/-- The walk from the first index on comes to the index at each position in its turn. -/
theorem iterate_nextIndex {position : Nat} (h : position < extents.prod) :
    (nextIndex (extents.map Int64.ofNat))^[position] (List.replicate extents.length 0)
      = (unravel extents position).map Int64.ofNat := by
  induction position with
  | zero => rw [unravel_zero, List.map_replicate]; rfl
  | succ position ih =>
      rw [Function.iterate_succ_apply', ih (by omega), nextIndex, advance_unravel hfit (by omega), if_pos h]

end Walk

/-- The multi-index that the walk through the moved axes has come to after so many elements. -/
def walkIndex (dims : List Int64) (perm : List Nat) (position : Nat) : List Int64 :=
  (nextIndex (permuteDims dims perm))^[position] (List.replicate dims.length 0)

/-- The position in the data that is read there. -/
def walkOffset (dims : List Int64) (perm : List Nat) (position : Nat) : Int64 :=
  offset (permuteDims (strides dims) perm) (walkIndex dims perm position)

section Filled
variable {dims perm : List Nat} (hperm : perm.Perm (List.range dims.length)) (hpos : ∀ d ∈ dims, 0 < d)
  (hfit : dims.prod < 2 ^ 63) {position : Nat} (h : position < dims.prod)
include hperm hpos hfit h

theorem walkIndex_ofNat :
    walkIndex (dims.map Int64.ofNat) perm position = (unravel (permute perm dims) position).map Int64.ofNat := by
  have hfits : ∀ d ∈ permute perm dims, d < 2 ^ 63 := fun d hd =>
    extent_lt hpos hfit ((permute_perm hperm).subset hd)
  rw [← (permute_perm hperm).prod_eq] at h
  rw [walkIndex, permuteDims_ofNat, List.length_map, ← length_permute hperm dims, iterate_nextIndex hfits h]

/-- The walk reads inside the data: the element whose index, as listed along the moved axes, it has come to. -/
theorem exists_walkOffset :
    ∃ index, Within index dims ∧ permute perm index = unravel (permute perm dims) position ∧
      walkOffset (dims.map Int64.ofNat) perm position = Int64.ofNat (ravel dims index) := by
  have hwithin := (ravel_unravel ((permute_perm hperm).prod_eq.symm ▸ h)).1
  obtain ⟨index, hindex, hindex_eq⟩ := exists_permute_eq hperm hwithin
  refine ⟨index, hindex, hindex_eq, ?_⟩
  rw [walkOffset, walkIndex_ofNat hperm hpos hfit h, ← hindex_eq, offset_permute hperm hindex]

end Filled

section Reading
variable {α : Type} {data out : Array α} {extents steps index : List Int64} {count : Nat}

/-- What is read are the elements at the indices that the walk comes to. -/
theorem readFrom?_eq_some {value : Nat → α}
    (h : ∀ n < count, elementAt? data (offset steps ((nextIndex extents)^[n] index)) = some (value n)) :
    readFrom? data extents steps count index out = some (out ++ ((List.range count).map value).toArray) := by
  induction count generalizing index out value with
  | zero => simp [readFrom?]
  | succ count ih =>
      have hfirst : elementAt? data (offset steps index) = some (value 0) := h 0 (Nat.succ_pos _)
      have hrest (n : Nat) (hn : n < count) := h (n + 1) (Nat.succ_lt_succ hn)
      simp only [readFrom?, hfirst]
      rw [ih hrest, List.range_succ_eq_map]
      simp [Function.comp_def]

theorem size_of_readFrom? {moved : Array α} (h : readFrom? data extents steps count index out = some moved) :
    moved.size = out.size + count := by
  induction count generalizing index out with
  | zero => cases h; rfl
  | succ count ih =>
      rw [readFrom?] at h
      split at h
      · cases h
      · rw [ih h, Array.size_push, Nat.add_assoc, Nat.add_comm 1]

theorem transpose?_eq_some {dims : List Int64} {perm : List Nat} {value : Nat → α}
    (h : ∀ position < data.size, elementAt? data (walkOffset dims perm position) = some (value position)) :
    transpose? data dims perm = some ((List.range data.size).map value).toArray := by
  rw [transpose?, readFrom?_eq_some h, Array.empty_append]

theorem size_of_transpose {moved : Array α} {dims : List Int64} {perm : List Nat}
    (h : transpose? data dims perm = some moved) : moved.size = data.size := by
  rw [size_of_readFrom? h, Array.size_empty, Nat.zero_add]

end Reading

/-! ### Data as the values of a function -/

/-- The data lists the values of a function of the indices in row-major order. -/
structure Lists {α : Type} (data : Array α) (dims : List Nat) (value : List Nat → α) : Prop where
  size : data.size = dims.prod
  value : ∀ index, Within index dims → data[ravel dims index]? = some (value index)

/-- The positions one multiplies out by hand. -/
theorem lists_iff {α : Type} {data : Array α} {dims : List Nat} {value : List Nat → α} :
    Lists data dims value ↔ data.size = dims.foldl (· * ·) 1 ∧ ∀ index, Within index dims →
      data[(index.zip dims).foldl (fun position x => position * x.2 + x.1) 0]? = some (value index) := by
  rw [← List.prod_eq_foldl]
  constructor
  · intro h
    exact ⟨h.size, fun index hindex => ravel_eq_foldl hindex ▸ h.value index hindex⟩
  · rintro ⟨hsize, hvalue⟩
    exact ⟨hsize, fun index hindex => ravel_eq_foldl hindex ▸ hvalue index hindex⟩

namespace Lists
variable {α : Type} {data data' : Array α} {dims perm : List Nat} {value value' : List Nat → α}

theorem of_size (hsize : data.size = dims.prod) (x : α) :
    Lists data dims fun index => data.getD (ravel dims index) x := by
  refine ⟨hsize, fun index hindex => ?_⟩
  have hlt : ravel dims index < data.size := hsize ▸ ravel_lt hindex
  simp [hlt]

theorem unique (h : Lists data dims value) (h' : Lists data' dims value) : data = data' := by
  refine Array.ext_getElem? fun position => ?_
  by_cases hlt : position < dims.prod
  · obtain ⟨hwithin, heq⟩ := ravel_unravel hlt
    rw [← heq, h.value _ hwithin, h'.value _ hwithin]
  · rw [Array.getElem?_eq_none (by rw [h.size]; omega), Array.getElem?_eq_none (by rw [h'.size]; omega)]

theorem elementAt? (h : Lists data dims value) (hfit : dims.prod < 2 ^ 63) {index : List Nat}
    (hindex : Within index dims) :
    NetLowering.elementAt? data (Int64.ofNat (ravel dims index)) = some (value index) := by
  have hlt : ravel dims index < 2 ^ 63 := (ravel_lt hindex).trans hfit
  have hnonneg : ¬ Int64.ofNat (ravel dims index) < 0 := by
    rw [Int64.lt_iff_toInt_lt, Int64.toInt_ofNat_of_lt hlt]
    simp
  rw [NetLowering.elementAt?, if_neg hnonneg, Int64.toNatClampNeg_ofNat_of_lt hlt, h.value _ hindex]

theorem transpose? (h : Lists data dims value) (hperm : perm.Perm (List.range dims.length))
    (hpos : ∀ d ∈ dims, 0 < d) (hfit : dims.prod < 2 ^ 63)
    (hvalue : ∀ index, Within index dims → value' (permute perm index) = value index) :
    ∃ moved, NetLowering.transpose? data (dims.map Int64.ofNat) perm = some moved ∧
      Lists moved (permute perm dims) value' := by
  have hprod : (permute perm dims).prod = dims.prod := (permute_perm hperm).prod_eq
  have hat : ∀ position < data.size,
      NetLowering.elementAt? data (walkOffset (dims.map Int64.ofNat) perm position)
        = some (value' (unravel (permute perm dims) position)) := by
    intro position hposition
    obtain ⟨index, hindex, hindex_eq, hoffset⟩ := exists_walkOffset hperm hpos hfit (h.size ▸ hposition)
    rw [hoffset, h.elementAt? hfit hindex, ← hindex_eq, hvalue index hindex]
  refine ⟨_, transpose?_eq_some hat, ?_, fun index hindex => ?_⟩
  · rw [List.size_toArray, List.length_map, List.length_range, h.size, hprod]
  · have hlt : ravel (permute perm dims) index < data.size := by
      rw [h.size, ← hprod]
      exact ravel_lt hindex
    rw [List.getElem?_toArray, List.getElem?_map, List.getElem?_range hlt, Option.map_some,
      unravel_ravel hindex]

/-- The values along the moved axes, by the index that each had before. -/
theorem moved (h : Lists data dims value) (hperm : perm.Perm (List.range dims.length))
    (hpos : ∀ d ∈ dims, 0 < d) (hfit : dims.prod < 2 ^ 63) :
    ∃ moved, NetLowering.transpose? data (dims.map Int64.ofNat) perm = some moved ∧
      Lists moved (permute perm dims) fun index => value (permute (inverseOrder perm) index) :=
  h.transpose? hperm hpos hfit fun index hindex => by
    rw [permute_inverseOrder_permute hperm hindex.length_eq]

end Lists

end NetLowering
