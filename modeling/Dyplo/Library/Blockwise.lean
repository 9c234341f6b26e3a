import Mathlib.Data.List.Basic
import Mathlib.Data.List.Infix

/-!
# Blockwise images

A function on blocks of `b` elements is applied to the complete blocks of a list, in order. An
incomplete last block has no image yet.
-/

universe u v

variable {β : Type u} {γ : Type v}

def blockwise (b : Nat) (f : List β → List γ) (xs : List β) : List γ :=
  (List.range (xs.length / b)).flatMap fun k => f ((xs.drop (k * b)).take b)

@[simp]
theorem blockwise_nil (b : Nat) (f : List β → List γ) : blockwise b f [] = [] := by
  simp [blockwise]

theorem blockwise_of_lt {b : Nat} (f : List β → List γ) {xs : List β} (h : xs.length < b) :
    blockwise b f xs = [] := by
  rw [blockwise, Nat.div_eq_of_lt h]
  rfl

private theorem block_append {b k : Nat} (xs ys : List β) (hk : k < xs.length / b) :
    ((xs ++ ys).drop (k * b)).take b = (xs.drop (k * b)).take b := by
  have hmul : (k + 1) * b ≤ xs.length / b * b := Nat.mul_le_mul_right b hk
  have hle : xs.length / b * b ≤ xs.length := Nat.div_mul_le_self _ _
  rw [Nat.succ_mul] at hmul
  rw [List.drop_append_of_le_length (by omega), List.take_append_of_le_length]
  rw [List.length_drop]
  omega

/-- The complete blocks of a longer list begin with those of the shorter one. -/
theorem blockwise_mono (b : Nat) (f : List β → List γ) {xs ys : List β} (h : xs <+: ys) :
    blockwise b f xs <+: blockwise b f ys := by
  obtain ⟨zs, rfl⟩ := h
  have hle : xs.length / b ≤ (xs ++ zs).length / b :=
    Nat.div_le_div_right (by simp)
  obtain ⟨extra, hextra⟩ := Nat.exists_eq_add_of_le hle
  rw [blockwise, blockwise, hextra, List.range_add, List.flatMap_append]
  have hsame : (List.range (xs.length / b)).flatMap
      (fun k => f (((xs ++ zs).drop (k * b)).take b)) =
        (List.range (xs.length / b)).flatMap fun k => f ((xs.drop (k * b)).take b) := by
    apply List.flatMap_congr
    intro k hk
    rw [block_append xs zs (List.mem_range.mp hk)]
  rw [hsame]
  exact List.prefix_append _ _

/-- The blocks of a list behind whole blocks follow their images. -/
theorem blockwise_append {b : Nat} (hb : 0 < b) (f : List β → List γ) {xs : List β}
    (hxs : b ∣ xs.length) (ys : List β) :
    blockwise b f (xs ++ ys) = blockwise b f xs ++ blockwise b f ys := by
  have hcount : (xs ++ ys).length / b = xs.length / b + ys.length / b := by
    obtain ⟨k, hk⟩ := hxs
    rw [List.length_append, hk, Nat.mul_add_div hb, Nat.mul_div_cancel_left k hb]
  rw [blockwise, blockwise, blockwise, hcount, List.range_add, List.flatMap_append]
  congr 1
  · apply List.flatMap_congr
    intro k hk
    rw [block_append xs ys (List.mem_range.mp hk)]
  · rw [List.flatMap_map]
    apply List.flatMap_congr
    intro k _
    have hstart : (xs.length / b + k) * b = xs.length + k * b := by
      rw [Nat.add_mul, Nat.div_mul_cancel hxs]
    rw [hstart, List.drop_length_add_append]

theorem blockwise_block {b : Nat} (hb : 0 < b) (f : List β → List γ) {block : List β}
    (hblock : block.length = b) : blockwise b f block = f block := by
  rw [blockwise, hblock, Nat.div_self hb, List.range_one, List.flatMap_singleton, Nat.zero_mul,
    List.drop_zero, ← hblock, List.take_length]

/-- One more block after whole blocks adds its own image. -/
theorem blockwise_append_block {b : Nat} (hb : 0 < b) (f : List β → List γ) {xs block : List β}
    (hxs : b ∣ xs.length) (hblock : block.length = b) :
    blockwise b f (xs ++ block) = blockwise b f xs ++ f block := by
  rw [blockwise_append hb f hxs, blockwise_block hb f hblock]

theorem blockwise_length_eq {b : Nat} {f : List β → List γ}
    (hf : ∀ block, block.length = b → (f block).length = b) (xs : List β) :
    (blockwise b f xs).length = xs.length / b * b := by
  have hblock : ∀ k ∈ List.range (xs.length / b), (f ((xs.drop (k * b)).take b)).length = b := by
    intro k hk
    have hmul : (k + 1) * b ≤ xs.length / b * b := Nat.mul_le_mul_right b (List.mem_range.mp hk)
    have hle : xs.length / b * b ≤ xs.length := Nat.div_mul_le_self _ _
    rw [Nat.succ_mul] at hmul
    apply hf
    rw [List.length_take, List.length_drop]
    omega
  rw [blockwise, List.length_flatMap, List.map_congr_left hblock, List.map_const',
    List.sum_replicate_nat, List.length_range]

/-- A function that keeps the length of a block keeps the length of whole blocks. -/
theorem blockwise_length {b : Nat} {f : List β → List γ}
    (hf : ∀ block, block.length = b → (f block).length = b) {xs : List β} (hxs : b ∣ xs.length) :
    (blockwise b f xs).length = xs.length := by
  rw [blockwise_length_eq hf, Nat.div_mul_cancel hxs]

theorem blockwise_flatMap {b : Nat} (hb : 0 < b) {f : List β → List γ} {encode : γ → List β}
    (hlen : ∀ x, (encode x).length = b) (hf : ∀ x, f (encode x) = [x]) (xs : List γ) :
    blockwise b f (xs.flatMap encode) = xs := by
  induction xs with
  | nil => simp
  | cons x xs ih =>
    have hdvd : b ∣ (encode x).length := by simp [hlen]
    rw [List.flatMap_cons, blockwise_append hb f hdvd, blockwise_block hb f (hlen x), hf, ih]
    simp

theorem length_flatMap_block {b : Nat} {encode : γ → List β} (hlen : ∀ x, (encode x).length = b)
    (xs : List γ) : (xs.flatMap encode).length = xs.length * b := by
  simp [List.length_flatMap, hlen]

theorem eq_flatMap_take {b : Nat} {encode : γ → List β} (hlen : ∀ x, (encode x).length = b)
    {xs : List β} {ys : List γ} (h : xs <+: ys.flatMap encode) (hdvd : b ∣ xs.length) :
    xs = (ys.take (xs.length / b)).flatMap encode := by
  have hsplit : (ys.take (xs.length / b)).flatMap encode <+: ys.flatMap encode := by
    conv_rhs => rw [← List.take_append_drop (xs.length / b) ys, List.flatMap_append]
    exact List.prefix_append _ _
  have hcount : xs.length / b ≤ ys.length := by
    have hle := h.length_le
    rw [length_flatMap_block hlen] at hle
    exact Nat.div_le_of_le_mul (Nat.mul_comm _ _ ▸ hle)
  have hlength : xs.length = ((ys.take (xs.length / b)).flatMap encode).length := by
    rw [length_flatMap_block hlen, List.length_take_of_le hcount, Nat.div_mul_cancel hdvd]
  exact (List.prefix_of_prefix_length_le h hsplit hlength.le).eq_of_length hlength

/-- Whole blocks can be told apart by their images if a single one can. -/
theorem blockwise_injective {b : Nat} (hb : 0 < b) {f : List β → List γ}
    (hf : ∀ block, block.length = b → (f block).length = b) (hinj : Function.Injective f)
    {xs ys : List β} (hxs : b ∣ xs.length) (hlen : xs.length = ys.length)
    (h : blockwise b f xs = blockwise b f ys) : xs = ys := by
  obtain ⟨n, hn⟩ := hxs
  induction n generalizing xs ys with
  | zero =>
    have hnil : xs = [] := List.eq_nil_of_length_eq_zero hn
    rw [hnil] at hlen
    rw [hnil, List.eq_nil_of_length_eq_zero hlen.symm]
  | succ n ih =>
    rw [Nat.mul_succ] at hn
    have hx : (xs.take b).length = b := List.length_take_of_le (by omega)
    have hy : (ys.take b).length = b := List.length_take_of_le (by omega)
    rw [← List.take_append_drop b xs, ← List.take_append_drop b ys,
      blockwise_append hb f (by simp [hx]), blockwise_append hb f (by simp [hy]),
      blockwise_block hb f hx, blockwise_block hb f hy] at h
    obtain ⟨hhead, htail⟩ := List.append_inj h (by rw [hf _ hx, hf _ hy])
    have hrest : xs.drop b = ys.drop b :=
      ih (by rw [List.length_drop, List.length_drop, hlen]) htail
        (by rw [List.length_drop]; omega)
    rw [← List.take_append_drop b xs, hinj hhead, hrest, List.take_append_drop]
