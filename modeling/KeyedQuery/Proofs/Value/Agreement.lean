import KeyedQuery.Proofs.Number.Exact
import KeyedQuery.Value.Basic

/-!
# Agreement of values

`Value.same` and `Value.agrees` are equivalences, and documents that are the same agree. On the
values that keys are made of, `Value.IsPlain`, agreement is equality.
-/

namespace KeyedQuery

namespace Number

theorem same_refl (a : Number) : a.same a = true := by
  cases a <;> simp [same, Binary64.same]

theorem same_symm {a b : Number} (h : a.same b = true) : b.same a = true := by
  cases a <;> cases b <;> simp_all [same, Binary64.same]

theorem same_trans {a b c : Number} (hab : a.same b = true) (hbc : b.same c = true) :
    a.same c = true := by
  cases a <;> cases b <;> cases c <;> simp_all [same, Binary64.same]

theorem agrees_of_same {a b : Number} (h : a.same b = true) : a.agrees b = true := by
  cases a <;> cases b <;> simp_all [same, Number.agrees, toBinary64, Binary64.same]

end Number

namespace Value

/-! ## Equality of documents -/

mutual

theorem same_refl : ∀ v : Value, v.same v = true
  | .null => rfl
  | .bool b => by simp [same]
  | .num n => by simpa [same] using n.same_refl
  | .str s => by simp [same]
  | .list xs => by simpa [same] using sameList_refl xs
  | .map fs => by simpa [same] using sameFields_refl fs

theorem sameList_refl : ∀ xs : List Value, sameList xs xs = true
  | [] => rfl
  | x :: xs => by simp [sameList, same_refl x, sameList_refl xs]

theorem sameFields_refl : ∀ fs : List (String × Value), sameFields fs fs = true
  | [] => rfl
  | (k, x) :: fs => by simp [sameFields, same_refl x, sameFields_refl fs]

end

mutual

theorem same_symm : ∀ {a b : Value}, a.same b = true → b.same a = true
  | .null, b, h => by cases b <;> simp_all [same]
  | .bool a, b, h => by cases b <;> simp_all [same]
  | .num a, b, h => by
    cases b with
    | num b => exact Number.same_symm h
    | _ => simp [same] at h
  | .str a, b, h => by cases b <;> simp_all [same]
  | .list xs, b, h => by
    cases b with
    | list ys => exact @sameList_symm xs _ h
    | _ => simp [same] at h
  | .map fs, b, h => by
    cases b with
    | map gs => exact @sameFields_symm fs _ h
    | _ => simp [same] at h

theorem sameList_symm : ∀ {xs ys : List Value}, sameList xs ys = true → sameList ys xs = true
  | [], ys, h => by cases ys <;> simp_all [sameList]
  | x :: xs, ys, h => by
    cases ys with
    | nil => simp [sameList] at h
    | cons y ys =>
      simp only [sameList, Bool.and_eq_true] at h ⊢
      exact ⟨same_symm h.1, sameList_symm h.2⟩

theorem sameFields_symm : ∀ {fs gs : List (String × Value)},
    sameFields fs gs = true → sameFields gs fs = true
  | [], gs, h => by cases gs <;> simp_all [sameFields]
  | (k, x) :: fs, gs, h => by
    cases gs with
    | nil => simp [sameFields] at h
    | cons g gs =>
      simp only [sameFields, Bool.and_eq_true, decide_eq_true_eq] at h ⊢
      exact ⟨h.1.symm, same_symm h.2.1, sameFields_symm h.2.2⟩

end

mutual

theorem same_trans : ∀ {a b c : Value}, a.same b = true → b.same c = true → a.same c = true
  | .null, b, c, hab, hbc => by cases b <;> cases c <;> simp_all [same]
  | .bool a, b, c, hab, hbc => by cases b <;> cases c <;> simp_all [same]
  | .num a, b, c, hab, hbc => by
    cases b with
    | num b =>
      cases c with
      | num c => exact Number.same_trans hab hbc
      | _ => simp [same] at hbc
    | _ => simp [same] at hab
  | .str a, b, c, hab, hbc => by cases b <;> cases c <;> simp_all [same]
  | .list xs, b, c, hab, hbc => by
    cases b with
    | list ys =>
      cases c with
      | list zs => exact @sameList_trans xs _ _ hab hbc
      | _ => simp [same] at hbc
    | _ => simp [same] at hab
  | .map fs, b, c, hab, hbc => by
    cases b with
    | map gs =>
      cases c with
      | map hs => exact @sameFields_trans fs _ _ hab hbc
      | _ => simp [same] at hbc
    | _ => simp [same] at hab

theorem sameList_trans : ∀ {xs ys zs : List Value},
    sameList xs ys = true → sameList ys zs = true → sameList xs zs = true
  | [], ys, zs, hxy, hyz => by cases ys <;> cases zs <;> simp_all [sameList]
  | x :: xs, ys, zs, hxy, hyz => by
    cases ys with
    | nil => simp [sameList] at hxy
    | cons y ys =>
      cases zs with
      | nil => simp [sameList] at hyz
      | cons z zs =>
        simp only [sameList, Bool.and_eq_true] at hxy hyz ⊢
        exact ⟨same_trans hxy.1 hyz.1, sameList_trans hxy.2 hyz.2⟩

theorem sameFields_trans : ∀ {fs gs hs : List (String × Value)},
    sameFields fs gs = true → sameFields gs hs = true → sameFields fs hs = true
  | [], gs, hs, hfg, hgh => by cases gs <;> cases hs <;> simp_all [sameFields]
  | (k, x) :: fs, gs, hs, hfg, hgh => by
    cases gs with
    | nil => simp [sameFields] at hfg
    | cons g gs =>
      cases hs with
      | nil => simp [sameFields] at hgh
      | cons h hs =>
        simp only [sameFields, Bool.and_eq_true, decide_eq_true_eq] at hfg hgh ⊢
        exact ⟨hfg.1.trans hgh.1, same_trans hfg.2.1 hgh.2.1, sameFields_trans hfg.2.2 hgh.2.2⟩

end

/-! ## Equality of conditions -/

theorem agrees_num (a b : Number) : (Value.num a).agrees (.num b) = a.agrees b :=
  rfl

theorem agrees_of_same {a b : Value} (h : a.same b = true) : a.agrees b = true := by
  cases a with
  | num a =>
    cases b with
    | num b => exact Number.agrees_of_same h
    | _ => exact h
  | _ => exact h

theorem agrees_refl (v : Value) : v.agrees v = true :=
  agrees_of_same v.same_refl

theorem agrees_symm {a b : Value} (h : a.agrees b = true) : b.agrees a = true := by
  cases a with
  | num a =>
    cases b with
    | num b =>
      rw [agrees_num, Number.agrees_iff] at h ⊢
      exact h.symm
    | _ => exact same_symm h
  | _ => cases b <;> exact same_symm h

theorem agrees_comm (a b : Value) : a.agrees b = b.agrees a :=
  Bool.eq_iff_iff.mpr ⟨agrees_symm, agrees_symm⟩

theorem agrees_eq_same {a b : Value} (hb : ∀ n, b ≠ .num n) : a.agrees b = a.same b := by
  cases a <;> cases b <;> first | rfl | exact absurd rfl (hb _)

theorem agrees_trans {a b c : Value} (hab : a.agrees b = true) (hbc : b.agrees c = true) :
    a.agrees c = true := by
  by_cases hb : ∀ n, b ≠ .num n
  · rw [agrees_eq_same hb] at hab
    rw [agrees_comm, agrees_eq_same hb] at hbc
    exact agrees_of_same (same_trans hab (same_symm hbc))
  · push Not at hb
    obtain ⟨n, rfl⟩ := hb
    cases a with
    | num a =>
      cases c with
      | num c =>
        rw [agrees_num, Number.agrees_iff] at hab hbc ⊢
        exact hab.trans hbc
      | _ => simp [agrees, same] at hbc
    | _ => simp [agrees, same] at hab

/-- Agreement with one of two agreeing values is agreement with the other. -/
theorem agrees_congr_right {a b : Value} (hab : a.agrees b = true) (v : Value) :
    v.agrees a = v.agrees b :=
  Bool.eq_iff_iff.mpr ⟨fun h => agrees_trans h hab, fun h => agrees_trans h (agrees_symm hab)⟩

/-- Only null agrees with null. -/
theorem agrees_null {v : Value} : v.agrees .null = v.isNull := by
  cases v <;> rfl

/-! ## Plain values -/

/-- A text, a truth value, or an integer that binary64 holds exactly. -/
def IsPlain : Value → Prop
  | .str _ | .bool _ => True
  | .num (.int n) => n.natAbs < Binary64.integerBound
  | _ => False

theorem IsPlain.cases {v : Value} (h : v.IsPlain) :
    (∃ s, v = .str s) ∨ (∃ b, v = .bool b) ∨
      ∃ n : Int, v = .num (.int n) ∧ n.natAbs < Binary64.integerBound := by
  cases v with
  | str s => exact Or.inl ⟨s, rfl⟩
  | bool b => exact Or.inr (Or.inl ⟨b, rfl⟩)
  | num n =>
    cases n with
    | int n => exact Or.inr (Or.inr ⟨n, rfl, h⟩)
    | real x => simp [IsPlain] at h
  | _ => simp [IsPlain] at h

/-- Plain values agree only if they are equal. -/
theorem agrees_iff_eq_of_isPlain {a b : Value} (ha : a.IsPlain) (hb : b.IsPlain) :
    a.agrees b = true ↔ a = b := by
  refine ⟨fun h => ?_, fun h => h ▸ agrees_refl a⟩
  obtain ⟨s, rfl⟩ | ⟨s, rfl⟩ | ⟨m, rfl, hm⟩ := ha.cases <;>
    obtain ⟨t, rfl⟩ | ⟨t, rfl⟩ | ⟨n, rfl, hn⟩ := hb.cases
  case inr.inr.inr.inr =>
    rw [(Number.int_agrees_int (hm.trans Binary64.integerBound_lt_twoPow)
      (hn.trans Binary64.integerBound_lt_twoPow)).mp h]
  all_goals simp_all [agrees, same]

end Value

end KeyedQuery
