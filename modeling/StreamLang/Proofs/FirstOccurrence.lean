import Mathlib.Logic.Function.Basic

/-!
Items in the order in which they occur first.
-/

namespace StreamLang

variable {α β : Type} [BEq α] [BEq β]

/-- A list is its first element and the others that differ from it, as far as repeats do not
matter. -/
theorem eraseDupsInduction {motive : List α → Prop} (nil : motive [])
    (cons : ∀ a xs, motive (xs.filter fun b => !b == a) → motive (a :: xs)) :
    ∀ xs, motive xs
  | [] => nil
  | a :: xs => cons a xs (eraseDupsInduction nil cons _)
termination_by xs => xs.length
decreasing_by exact Nat.lt_succ_of_le (List.length_filter_le _ xs)

variable [LawfulBEq α] [LawfulBEq β]

theorem nodup_eraseDups (xs : List α) : xs.eraseDups.Nodup := by
  induction xs using eraseDupsInduction with
  | nil => simp
  | cons a xs ih =>
      rw [List.eraseDups_cons, List.nodup_cons]
      exact ⟨by simp, ih⟩

theorem filter_eraseDups (choose : α → Bool) (xs : List α) :
    xs.eraseDups.filter choose = (xs.filter choose).eraseDups := by
  induction xs using eraseDupsInduction with
  | nil => rfl
  | cons a xs ih =>
      rw [List.eraseDups_cons, List.filter_cons, List.filter_cons, ih, List.filter_filter]
      by_cases chosen : choose a = true
      · rw [if_pos chosen, if_pos chosen, List.eraseDups_cons, List.filter_filter]
        simp only [Bool.and_comm]
      · rw [if_neg chosen, if_neg chosen]
        congr 1
        apply List.filter_congr
        intro b _
        by_cases same : b = a
        · simp [same, chosen]
        · simp [same]

theorem eraseDups_map {f : α → β} (injective : Function.Injective f) (xs : List α) :
    (xs.map f).eraseDups = xs.eraseDups.map f := by
  induction xs using eraseDupsInduction with
  | nil => rfl
  | cons a xs ih =>
      have apart : ∀ b, (!f b == f a) = !b == a := by
        intro b
        rw [Bool.eq_iff_iff]
        simp [injective.eq_iff]
      rw [List.map_cons, List.eraseDups_cons, List.eraseDups_cons, List.map_cons, ← ih,
        List.filter_map]
      simp only [Function.comp_def, apart]

end StreamLang
