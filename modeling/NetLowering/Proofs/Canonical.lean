import Mathlib
import NetLowering.Tensor
import NetLowering.Proofs.Axes

/-! # Constants in canonical order

The canonical form of a constant is a function of its values alone, not of the layout it was stored in.
`canonical_of_moved` follows the values of a tensor whose axes have to move, and `canonical_of_kept` is the
case where none has to. -/

namespace NetLowering

/-- The axes that a layout moves are its own, each once. -/
theorem Layout.permutation_perm {layout : Layout} {perm : List Nat} {rank : Nat}
    (hperm : layout.permutation = some perm) (hrank : layout.rank? = some rank) :
    perm.Perm (List.range rank) := by
  cases layout with
  | filterChannelRowColumn | channelRowColumnFilter | rowColumn | channelRowColumn =>
      cases hperm
      cases hrank
      decide
  | unset | scalar | channel | rowColumnChannel | unlisted => cases hperm

namespace Tensor

/-- The tensor has the given layout and extents, and as many values as they describe. -/
structure HasForm (t : Tensor) (layout : Layout) (extents : List Nat) : Prop where
  layout : t.layout = layout
  dims : t.dims = extents.map Int64.ofNat
  size : t.data.size = extents.foldl (· * ·) 1

section Values
variable {t : Tensor} {layout : Layout} {dims perm : List Nat}

theorem HasForm.lists (h : t.HasForm layout dims) (value : List Nat → Single)
    (hvalue : ∀ index, Within index dims →
      t.data[(index.zip dims).foldl (fun position x => position * x.2 + x.1) 0]? = some (value index)) :
    Lists t.data dims value :=
  lists_iff.mpr ⟨h.size, hvalue⟩

theorem HasForm.rank (h : t.HasForm layout dims) (hrank : layout.rank? = some dims.length) :
    ¬ layout.rank? ≠ some t.dims.length := by
  rw [h.dims, List.length_map, hrank]
  exact not_not_intro rfl

theorem canonical_of_moved {value : List Nat → Single} (value' : List Nat → Single)
    (h : t.HasForm layout dims) (hlists : Lists t.data dims value)
    (hrank : layout.rank? = some dims.length) (hlayout : layout.permutation = some perm)
    (hpos : ∀ d ∈ dims, 0 < d) (hfit : dims.foldl (· * ·) 1 < 2 ^ 63)
    (hvalue : ∀ index, Within index dims → value' (permute perm index) = value index) :
    ∃ data, t.canonical = .ok ⟨(permute perm dims).map Int64.ofNat, data⟩ ∧
      Lists data (permute perm dims) value' := by
  rw [← List.prod_eq_foldl] at hfit
  obtain ⟨data, hdata, hlists⟩ :=
    hlists.transpose? (Layout.permutation_perm hlayout hrank) hpos hfit hvalue
  refine ⟨data, ?_, hlists⟩
  rw [canonical, h.layout, canonicalAs, if_neg (h.rank hrank), hlayout]
  simp only [h.dims, hdata, permuteDims_ofNat]

theorem canonical_of_kept (h : t.HasForm layout dims) (hrank : layout.rank? = some dims.length)
    (hlayout : layout.permutation = none) : t.canonical = .ok ⟨dims.map Int64.ofNat, t.data⟩ := by
  rw [canonical, h.layout, canonicalAs, if_neg (h.rank hrank), hlayout, ← h.dims]

end Values

/-- Filters stored by filter, channel, row and column, and the same filters stored by channel, row, column
and filter, are one constant, with its values in the order filter, row, column, channel. So are images by
channel, row and column and by row, column and channel; and a matrix is turned. -/
theorem canonical_of_values :
    (∀ (F C R K : Nat) (W : Nat → Nat → Nat → Nat → Single) (s t : Tensor),
      0 < F → 0 < C → 0 < R → 0 < K → F * C * R * K < 2 ^ 63 →
      s.HasForm .filterChannelRowColumn [F, C, R, K] →
      (∀ f < F, ∀ c < C, ∀ r < R, ∀ k < K, s.data[((f * C + c) * R + r) * K + k]? = some (W f c r k)) →
      t.HasForm .channelRowColumnFilter [C, R, K, F] →
      (∀ c < C, ∀ r < R, ∀ k < K, ∀ f < F, t.data[((c * R + r) * K + k) * F + f]? = some (W f c r k)) →
      ∃ a : Constant, s.canonical = .ok a ∧ t.canonical = .ok a ∧
        a.dims = [.ofNat F, .ofNat R, .ofNat K, .ofNat C] ∧ a.data.size = F * R * K * C ∧
        ∀ f < F, ∀ r < R, ∀ k < K, ∀ c < C, a.data[((f * R + r) * K + k) * C + c]? = some (W f c r k)) ∧
    (∀ (C R K : Nat) (W : Nat → Nat → Nat → Single) (s t : Tensor),
      0 < C → 0 < R → 0 < K → C * R * K < 2 ^ 63 →
      s.HasForm .channelRowColumn [C, R, K] →
      (∀ c < C, ∀ r < R, ∀ k < K, s.data[(c * R + r) * K + k]? = some (W c r k)) →
      t.HasForm .rowColumnChannel [R, K, C] →
      (∀ r < R, ∀ k < K, ∀ c < C, t.data[(r * K + k) * C + c]? = some (W c r k)) →
      ∃ a : Constant, s.canonical = .ok a ∧ t.canonical = .ok a ∧
        a.dims = [.ofNat R, .ofNat K, .ofNat C] ∧ a.data.size = R * K * C ∧
        ∀ r < R, ∀ k < K, ∀ c < C, a.data[(r * K + k) * C + c]? = some (W c r k)) ∧
    (∀ (I O : Nat) (W : Nat → Nat → Single) (s : Tensor),
      0 < I → 0 < O → I * O < 2 ^ 63 →
      s.HasForm .rowColumn [I, O] →
      (∀ i < I, ∀ o < O, s.data[i * O + o]? = some (W i o)) →
      ∃ a : Constant, s.canonical = .ok a ∧ a.dims = [.ofNat O, .ofNat I] ∧ a.data.size = O * I ∧
        ∀ o < O, ∀ i < I, a.data[o * I + i]? = some (W i o)) := by
  refine ⟨?_, ?_, ?_⟩
  · intro F C R K W s t hF hC hR hK hfit hs hsW ht htW
    have hsW := hs.lists (fun i => W (i.getD 0 0) (i.getD 1 0) (i.getD 2 0) (i.getD 3 0)) (by simpa using hsW)
    have htW := ht.lists (fun i => W (i.getD 3 0) (i.getD 0 0) (i.getD 1 0) (i.getD 2 0)) (by simpa using htW)
    have hfit' : C * R * K * F < 2 ^ 63 := by
      have hcomm : C * R * K * F = F * C * R * K := by ring
      rwa [hcomm]
    obtain ⟨x, hx, hxW⟩ := canonical_of_moved
      (fun i => W (i.getD 0 0) (i.getD 3 0) (i.getD 1 0) (i.getD 2 0)) hs hsW rfl rfl
      (by simp [hF, hC, hR, hK]) (by simpa using hfit) fun _ _ => rfl
    obtain ⟨y, hy, hyW⟩ := canonical_of_moved
      (fun i => W (i.getD 0 0) (i.getD 3 0) (i.getD 1 0) (i.getD 2 0)) ht htW rfl rfl
      (by simp [hF, hC, hR, hK]) (by simpa using hfit') fun _ _ => rfl
    obtain rfl := hxW.unique hyW
    refine ⟨_, hx, hy, rfl, ?_⟩
    simpa [lists_iff, permute] using hxW
  · intro C R K W s t hC hR hK hfit hs hsW ht htW
    have hsW := hs.lists (fun i => W (i.getD 0 0) (i.getD 1 0) (i.getD 2 0)) (by simpa using hsW)
    have htW := ht.lists (fun i => W (i.getD 2 0) (i.getD 0 0) (i.getD 1 0)) (by simpa using htW)
    obtain ⟨x, hx, hxW⟩ := canonical_of_moved (fun i => W (i.getD 2 0) (i.getD 0 0) (i.getD 1 0)) hs hsW
      rfl rfl (by simp [hC, hR, hK]) (by simpa using hfit) fun _ _ => rfl
    obtain rfl := hxW.unique htW
    refine ⟨_, hx, canonical_of_kept ht rfl rfl, rfl, ?_⟩
    simpa [lists_iff, permute] using hxW
  · intro I O W s hI hO hfit hs hsW
    have hsW := hs.lists (fun i => W (i.getD 0 0) (i.getD 1 0)) (by simpa using hsW)
    obtain ⟨x, hx, hxW⟩ := canonical_of_moved (fun i => W (i.getD 1 0) (i.getD 0 0)) hs hsW rfl rfl
      (by simp [hI, hO]) (by simpa using hfit) fun _ _ => rfl
    refine ⟨_, hx, rfl, ?_⟩
    simpa [lists_iff, permute] using hxW

/-- Two filters of two channels and one row of three columns, the values numbered as first stored. -/
theorem canonical_of_twelve_values :
    ∃ a : Constant,
      Tensor.canonical ⟨"w", [2, 2, 1, 3], .filterChannelRowColumn,
        #[⟨0⟩, ⟨1⟩, ⟨2⟩, ⟨3⟩, ⟨4⟩, ⟨5⟩, ⟨6⟩, ⟨7⟩, ⟨8⟩, ⟨9⟩, ⟨10⟩, ⟨11⟩]⟩ = .ok a ∧
      Tensor.canonical ⟨"w", [2, 1, 3, 2], .channelRowColumnFilter,
        #[⟨0⟩, ⟨6⟩, ⟨1⟩, ⟨7⟩, ⟨2⟩, ⟨8⟩, ⟨3⟩, ⟨9⟩, ⟨4⟩, ⟨10⟩, ⟨5⟩, ⟨11⟩]⟩ = .ok a ∧
      a.dims = [2, 1, 3, 2] := by
  obtain ⟨a, hs, ht, hdims, _⟩ := canonical_of_values.1 2 2 1 3
    (fun f c r k => ⟨.ofNat (((f * 2 + c) * 1 + r) * 3 + k)⟩)
    ⟨"w", [2, 2, 1, 3], .filterChannelRowColumn,
      #[⟨0⟩, ⟨1⟩, ⟨2⟩, ⟨3⟩, ⟨4⟩, ⟨5⟩, ⟨6⟩, ⟨7⟩, ⟨8⟩, ⟨9⟩, ⟨10⟩, ⟨11⟩]⟩
    ⟨"w", [2, 1, 3, 2], .channelRowColumnFilter,
      #[⟨0⟩, ⟨6⟩, ⟨1⟩, ⟨7⟩, ⟨2⟩, ⟨8⟩, ⟨3⟩, ⟨9⟩, ⟨4⟩, ⟨10⟩, ⟨5⟩, ⟨11⟩]⟩
    (by decide) (by decide) (by decide) (by decide) (by decide) ⟨rfl, rfl, rfl⟩ (by decide)
    ⟨rfl, rfl, rfl⟩ (by decide)
  exact ⟨a, hs, ht, hdims⟩

end Tensor
end NetLowering
