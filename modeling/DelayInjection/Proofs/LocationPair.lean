import DelayInjection.LocationPair

-- Pairs of locations are ordered by their keys.

namespace DelayInjection

namespace LocationPair

theorem le_iff (a b : LocationPair) :
    a.le b = true ↔ a.first < b.first ∨ a.first = b.first ∧ a.second ≤ b.second := by
  simp [le]

theorem le_trans (a b c : LocationPair) (hab : a.le b = true) (hbc : b.le c = true) :
    a.le c = true := by
  rw [le_iff] at hab hbc ⊢
  rcases hab with hab | ⟨hab, hle⟩
  · rcases hbc with hbc | ⟨hbc, -⟩
    · exact .inl (String.lt_trans hab hbc)
    · exact .inl (hbc ▸ hab)
  · rcases hbc with hbc | ⟨hbc, hle'⟩
    · exact .inl (hab ▸ hbc)
    · exact .inr ⟨hab.trans hbc, String.le_trans hle hle'⟩

theorem le_total (a b : LocationPair) : (a.le b || b.le a) = true := by
  rw [Bool.or_eq_true, le_iff, le_iff]
  by_cases hab : a.first < b.first
  · exact .inl (.inl hab)
  · by_cases hba : b.first < a.first
    · exact .inr (.inl hba)
    · have he := String.le_antisymm (String.not_lt.mp hba) (String.not_lt.mp hab)
      rcases String.le_total a.second b.second with hle | hle
      · exact .inl (.inr ⟨he, hle⟩)
      · exact .inr (.inr ⟨he.symm, hle⟩)

theorem sort_pairwise (pairs : List LocationPair) :
    (sort pairs).Pairwise fun a b => a.le b = true :=
  List.pairwise_mergeSort le_trans le_total pairs

theorem sort_perm (pairs : List LocationPair) : (sort pairs).Perm pairs :=
  List.mergeSort_perm pairs le

end LocationPair

end DelayInjection
