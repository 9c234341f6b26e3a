import Mathlib.Data.List.MinMax

/-!
# First maxima

A loop that keeps the best candidate so far, and replaces it only by a strictly better one, ends
with the first of the best candidates. It may stop as soon as it has reached a bound of all of
them: the candidates behind do not change the result.
-/

universe u v w

namespace FirstMaximum

variable {α : Type u} {β : Type v} {f : α → Nat}

/-- `argmax` is the first maximum: everything before it is smaller, nothing behind it is
greater. -/
theorem argmax_eq_some_iff_append {l : List α} {c : α} :
    l.argmax f = some c ↔ ∃ before behind, l = before ++ c :: behind ∧
      (∀ d ∈ before, f d < f c) ∧ ∀ d ∈ behind, f d ≤ f c := by
  constructor
  · intro h
    induction l using List.reverseRecOn generalizing c with
    | nil => cases h
    | append_singleton l a ih =>
      rw [List.argmax_concat] at h
      cases hbest : l.argmax f with
      | none =>
        rw [hbest] at h
        obtain rfl := Option.some.inj h
        rw [List.argmax_eq_none.mp hbest]
        exact ⟨[], [], rfl, fun d hd => absurd hd List.not_mem_nil,
          fun d hd => absurd hd List.not_mem_nil⟩
      | some b =>
        rw [hbest] at h
        change (if f b < f a then some a else some b) = some c at h
        split_ifs at h with hlt
        · obtain rfl := Option.some.inj h
          refine ⟨l, [], rfl, ?_, fun d hd => absurd hd List.not_mem_nil⟩
          intro d hd
          exact (List.le_of_mem_argmax hd hbest).trans_lt hlt
        · obtain rfl := Option.some.inj h
          obtain ⟨before, behind, rfl, hbefore, hbehind⟩ := ih hbest
          refine ⟨before, behind ++ [a], by simp, hbefore, ?_⟩
          intro d hd
          rcases List.mem_append.mp hd with hd | hd
          · exact hbehind d hd
          · obtain rfl := List.mem_singleton.mp hd
            exact Nat.le_of_not_lt hlt
  · rintro ⟨before, behind, rfl, hbefore, hbehind⟩
    induction behind using List.reverseRecOn with
    | nil =>
      rw [List.argmax_concat]
      cases hbest : before.argmax f with
      | none => rfl
      | some b => exact if_pos (hbefore b (List.argmax_mem hbest))
    | append_singleton behind a ih =>
      have hprefix := ih fun d hd => hbehind d (List.mem_append_left _ hd)
      rw [← List.cons_append, ← List.append_assoc, List.argmax_concat, hprefix]
      exact if_neg (Nat.not_lt.mpr (hbehind a (by simp)))

theorem argmax_map {g : β → Nat} {h : α → β} {shift : Nat} (heq : ∀ x, g (h x) = shift + f x)
    {l : List α} {c : α} (hc : l.argmax f = some c) : (l.map h).argmax g = some (h c) := by
  obtain ⟨before, behind, rfl, hbefore, hbehind⟩ := argmax_eq_some_iff_append.mp hc
  refine argmax_eq_some_iff_append.mpr
    ⟨before.map h, behind.map h, by rw [List.map_append, List.map_cons], ?_, ?_⟩
  · intro y hy
    obtain ⟨x, hx, rfl⟩ := List.mem_map.mp hy
    rw [heq, heq]
    exact Nat.add_lt_add_left (hbefore x hx) shift
  · intro y hy
    obtain ⟨x, hx, rfl⟩ := List.mem_map.mp hy
    rw [heq, heq]
    exact Nat.add_le_add_left (hbehind x hx) shift

/-- The first maximum of a list of families is the first maximum of the family that belongs to
the first maximum, if each family is bounded by its owner and this one reaches the bound. -/
theorem argmax_flatMap {g : β → Nat} {family : α → List β} {l : List α} {c : α} {x : β}
    (hbound : ∀ d ∈ l, ∀ y ∈ family d, g y ≤ f d) (hc : l.argmax f = some c)
    (hx : (family c).argmax g = some x) (heq : g x = f c) :
    (l.flatMap family).argmax g = some x := by
  obtain ⟨before, behind, rfl, hbefore, hbehind⟩ := argmax_eq_some_iff_append.mp hc
  obtain ⟨front, back, hfamily, hfront, hback⟩ := argmax_eq_some_iff_append.mp hx
  refine argmax_eq_some_iff_append.mpr
    ⟨before.flatMap family ++ front, back ++ behind.flatMap family, ?_, ?_, ?_⟩
  · rw [List.flatMap_append, List.flatMap_cons, hfamily]
    simp only [List.append_assoc, List.cons_append]
  · intro y hy
    rcases List.mem_append.mp hy with hy | hy
    · obtain ⟨d, hd, hy⟩ := List.mem_flatMap.mp hy
      rw [heq]
      exact (hbound d (List.mem_append_left _ hd) y hy).trans_lt (hbefore d hd)
    · exact hfront y hy
  · intro y hy
    rcases List.mem_append.mp hy with hy | hy
    · exact hback y hy
    · obtain ⟨d, hd, hy⟩ := List.mem_flatMap.mp hy
      rw [heq]
      exact (hbound d (List.mem_append_right _ (List.mem_cons_of_mem _ hd)) y hy).trans
        (hbehind d hd)

/-- One turn of the loop: the record changes only for something strictly better. -/
def improve (f : α → Nat) (label : α → β) (record : Nat × β) (x : α) : Nat × β :=
  if record.1 < f x then (f x, label x) else record

theorem improve_fst (label : α → β) (record : Nat × β) (x : α) :
    (improve f label record x).1 = max record.1 (f x) := by
  unfold improve
  split_ifs with h
  · exact (max_eq_right h.le).symm
  · exact (max_eq_left (Nat.le_of_not_lt h)).symm

theorem improve_of_le {label : α → β} {record : Nat × β} {x : α} (h : f x ≤ record.1) :
    improve f label record x = record :=
  if_neg (Nat.not_lt.mpr h)

theorem improve_of_lt {label : α → β} {record : Nat × β} {x : α} (h : record.1 < f x) :
    improve f label record x = (f x, label x) :=
  if_pos h

theorem foldl_improve (label : α → β) (l : List α) (start : Nat × β) :
    l.foldl (improve f label) start = (l.argmax f).elim start (improve f label start) := by
  induction l using List.reverseRecOn with
  | nil => rfl
  | append_singleton l a ih =>
    rw [List.foldl_append, List.foldl_cons, List.foldl_nil, ih, List.argmax_concat]
    cases l.argmax f with
    | none => rfl
    | some b =>
      change improve f label (improve f label start b) a =
        (if f b < f a then some a else some b).elim start (improve f label start)
      by_cases hab : f b < f a
      · rw [if_pos hab, Option.elim_some]
        by_cases hb : start.1 < f b
        · rw [improve_of_lt hb, improve_of_lt hab, improve_of_lt (hb.trans hab)]
        · rw [improve_of_le (Nat.le_of_not_lt hb)]
      · rw [if_neg hab, Option.elim_some]
        apply improve_of_le
        rw [improve_fst]
        exact (Nat.le_of_not_lt hab).trans (le_max_right _ _)

theorem foldl_improve_translate {γ : Type w} (translate : β → γ) (label : α → β) (l : List α)
    (start : Nat × β) :
    l.foldl (improve f fun x => translate (label x)) (start.1, translate start.2) =
      ((l.foldl (improve f label) start).1, translate (l.foldl (improve f label) start).2) := by
  induction l generalizing start with
  | nil => rfl
  | cons x l ih =>
    have hturn : improve f (fun x => translate (label x)) (start.1, translate start.2) x =
        ((improve f label start x).1, translate (improve f label start x).2) := by
      unfold improve
      dsimp only
      split_ifs <;> rfl
    rw [List.foldl_cons, List.foldl_cons, hturn, ih]

theorem foldl_improve_of_le {label : α → β} {l : List α} {start : Nat × β}
    (h : ∀ x ∈ l, f x ≤ start.1) : l.foldl (improve f label) start = start := by
  induction l with
  | nil => rfl
  | cons x l ih =>
    rw [List.foldl_cons, improve_of_le (h x List.mem_cons_self)]
    exact ih fun y hy => h y (List.mem_cons_of_mem x hy)

/-- The candidates that the loop looks at, if it stops once its record reaches `bound`. -/
def tried (bound : Nat) (f : α → Nat) : Nat → List α → List α
  | _, [] => []
  | record, x :: xs => if record < bound then x :: tried bound f (max record (f x)) xs else []

theorem tried_of_le {bound record : Nat} (h : bound ≤ record) (l : List α) :
    tried bound f record l = [] := by
  cases l with
  | nil => rfl
  | cons x l => exact if_neg (Nat.not_lt.mpr h)

theorem tried_cons {bound : Nat} {start : Nat × β} (label : α → β) (h : start.1 < bound) (x : α)
    (l : List α) :
    tried bound f start.1 (x :: l) =
      x :: tried bound f (improve f label start x).1 l := by
  rw [tried, if_pos h, improve_fst]

theorem tried_concat {bound : Nat} (label : α → β) (l : List α) (x : α) (start : Nat × β) :
    tried bound f start.1 (l ++ [x]) = tried bound f start.1 l ++
      if ((tried bound f start.1 l).foldl (improve f label) start).1 < bound then [x] else [] := by
  induction l generalizing start with
  | nil => rfl
  | cons y l ih =>
    rw [List.cons_append]
    by_cases hlt : start.1 < bound
    · rw [tried_cons label hlt, tried_cons label hlt, ih, List.cons_append, List.foldl_cons]
    · rw [tried_of_le (Nat.le_of_not_lt hlt), tried_of_le (Nat.le_of_not_lt hlt),
        List.foldl_nil, if_neg hlt]
      rfl

theorem tried_subset {bound record : Nat} {l : List α} {x : α} (h : x ∈ tried bound f record l) :
    x ∈ l := by
  induction l generalizing record with
  | nil => cases h
  | cons y l ih =>
    rw [tried] at h
    split_ifs at h
    · rcases List.mem_cons.mp h with rfl | h
      · exact List.mem_cons_self
      · exact List.mem_cons_of_mem y (ih h)
    · cases h

theorem foldl_tried {bound : Nat} (label : α → β) {l : List α} (hbound : ∀ x ∈ l, f x ≤ bound)
    (start : Nat × β) :
    (tried bound f start.1 l).foldl (improve f label) start =
      l.foldl (improve f label) start := by
  induction l generalizing start with
  | nil => rfl
  | cons x l ih =>
    rw [tried]
    split_ifs with hlt
    · rw [List.foldl_cons, List.foldl_cons, ← improve_fst label start x]
      exact ih (fun y hy => hbound y (List.mem_cons_of_mem x hy)) _
    · -- the record has reached the bound, so nothing behind is better
      rw [List.foldl_nil, foldl_improve_of_le]
      exact fun y hy => (hbound y hy).trans (Nat.le_of_not_lt hlt)

theorem argmax_tried {bound start : Nat} {l : List α} (hbound : ∀ x ∈ l, f x ≤ bound) {c : α}
    (hc : l.argmax f = some c) (hlt : start < f c) :
    (tried bound f start l).argmax f = some c := by
  have hall := foldl_tried some hbound (start, none)
  rw [foldl_improve, foldl_improve, hc, Option.elim_some, improve_of_lt hlt] at hall
  cases hkept : (tried bound f start l).argmax f with
  | none =>
    rw [hkept] at hall
    cases hall
  | some x =>
    rw [hkept, Option.elim_some] at hall
    unfold improve at hall
    split_ifs at hall
    · exact (Prod.mk.inj hall).2
    · cases hall

end FirstMaximum
