import Mathlib.Data.List.Forall2

/-!
# Outcomes

What may fail ends with a result or with an error. `errorOf` is the error, if there is one. Of
steps that are taken one after the other the first error is the one that counts (`errorOf_bind`),
and there is a result exactly if each step has one (`bind_eq_ok_iff`). A list whose items are worked
off one by one has the results `bs` exactly if the items have them, one each (`list_eq_ok_iff`).
-/

set_option autoImplicit false

namespace FilterQuery

variable {ε α β : Type}

/-! ## Errors -/

/-- The error of an outcome. -/
def errorOf : Except ε α → Option ε
  | .error e => some e
  | .ok _ => none

theorem errorOf_eq_none_iff {x : Except ε α} : errorOf x = none ↔ ∃ a, x = .ok a := by
  cases x <;> simp [errorOf]

theorem errorOf_eq_some_iff {x : Except ε α} {e : ε} : errorOf x = some e ↔ x = .error e := by
  cases x <;> simp [errorOf]

theorem errorOf_map (f : α → β) (x : Except ε α) : errorOf (x.map f) = errorOf x := by
  cases x with
  | error e => rfl
  | ok a => rfl

/-- The second step matters only behind a result of the first one. -/
theorem errorOf_bind {x : Except ε α} {f : α → Except ε β} {e? : Option ε}
    (hf : ∀ a, errorOf (f a) = e?) : errorOf (x >>= f) = (errorOf x).or e? := by
  cases x with
  | error e => rfl
  | ok a => exact hf a

/-! ## Results -/

theorem bind_eq_ok_iff {x : Except ε α} {f : α → Except ε β} {b : β} :
    (x >>= f) = .ok b ↔ ∃ a, x = .ok a ∧ f a = .ok b := by
  cases x with
  | error e => exact ⟨nofun, nofun⟩
  | ok a => exact ⟨fun h => ⟨a, rfl, h⟩, fun ⟨_, h, hf⟩ => Except.ok.inj h ▸ hf⟩

theorem map_eq_ok_iff {x : Except ε α} {f : α → β} {b : β} :
    x.map f = .ok b ↔ ∃ a, x = .ok a ∧ f a = b := by
  cases x with
  | error e => exact ⟨nofun, nofun⟩
  | ok a => simp [Except.map]

/-- Items are worked off one after the other. -/
theorem list_eq_ok_iff (f : α → Except ε β) (F : List α → Except ε (List β)) (hnil : F [] = .ok [])
    (hcons : ∀ a as, F (a :: as) = f a >>= fun b => F as >>= fun bs => .ok (b :: bs))
    {as : List α} {bs : List β} : F as = .ok bs ↔ List.Forall₂ (fun a b => f a = .ok b) as bs := by
  induction as generalizing bs with
  | nil => simp [hnil, eq_comm]
  | cons a as ih =>
      rw [hcons, bind_eq_ok_iff, List.forall₂_cons_left_iff]
      simp only [bind_eq_ok_iff, ih, Except.ok.injEq]
      constructor
      · rintro ⟨b, hb, bs, hbs, rfl⟩
        exact ⟨b, bs, hb, hbs, rfl⟩
      · rintro ⟨b, bs, hb, hbs, rfl⟩
        exact ⟨b, hb, bs, hbs, rfl⟩

end FilterQuery
