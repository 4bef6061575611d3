import Mathlib.Data.List.AList

/-!
# Tables

Lookups in association lists with one value type.
-/

namespace Support

variable {α β : Type} [DecidableEq α] {T : AList fun _ : α => β} {k k' : α} {v : β}

theorem mem_values_iff : v ∈ T.entries.map Sigma.snd ↔ ∃ k, T.lookup k = some v := by
  constructor
  · intro hv
    obtain ⟨⟨k, v'⟩, hmem, rfl⟩ := List.mem_map.mp hv
    exact ⟨k, AList.mem_lookup_iff.mpr hmem⟩
  · rintro ⟨k, hk⟩
    exact List.mem_map.mpr ⟨⟨k, v⟩, AList.mem_lookup_iff.mp hk, rfl⟩

theorem nodup_values (h : ∀ k k' v, T.lookup k = some v → T.lookup k' = some v → k = k') :
    (T.entries.map Sigma.snd).Nodup := by
  apply List.Nodup.map_on
  · rintro ⟨k, v⟩ hk ⟨k', v'⟩ hk' rfl
    rw [h k k' v (AList.mem_lookup_iff.mpr hk) (AList.mem_lookup_iff.mpr hk')]
  · exact T.nodupKeys.nodup

theorem lookup_of_erase (h : (T.erase k).lookup k' = some v) : T.lookup k' = some v := by
  by_cases hkk : k' = k
  · subst hkk
    simp [AList.lookup_erase] at h
  · rwa [AList.lookup_erase_ne hkk] at h

theorem erase_insert_of_lookup_eq_none (h : T.lookup k = none) : (T.insert k v).erase k = T := by
  have hk : k ∉ T := AList.lookup_eq_none.mp h
  apply AList.ext
  change List.kerase k (T.insert k v).entries = T.entries
  rw [AList.entries_insert_of_notMem hk]
  exact List.kerase_cons_eq rfl

end Support
