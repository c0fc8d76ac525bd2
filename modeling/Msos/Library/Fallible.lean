import Mathlib.Data.List.Basic
import Mathlib.Data.List.Induction

namespace Msos.Library.Fallible

universe u v

variable {ε : Type u} {α β σ : Type v}

theorem bind_eq_ok {value : Except ε α} {next : α → Except ε β} {result : β} :
    (value >>= next) = .ok result ↔ ∃ a, value = .ok a ∧ next a = .ok result := by
  cases value <;> simp [bind, Except.bind]

theorem map_eq_ok {value : Except ε α} {f : α → β} {result : β} :
    value.map f = .ok result ↔ ∃ a, value = .ok a ∧ f a = result := by
  cases value <;> simp [Except.map]

theorem mapError_eq_ok {ε' : Type u} {value : Except ε α} {f : ε → ε'} {a : α}
    (h : value.mapError f = .ok a) : value = .ok a := by
  cases value with
  | error fault => cases h
  | ok b => exact congrArg Except.ok (Except.ok.inj h)

theorem mapM_eq_ok {f : α → Except ε β} {list : List α} {results : List β} :
    list.mapM f = .ok results ↔ list.map f = results.map Except.ok := by
  induction list generalizing results with
  | nil => cases results <;> simp [pure, Except.pure]
  | cons a rest ih =>
      rw [List.mapM_cons, bind_eq_ok]
      constructor
      · rintro ⟨b, hb, h⟩
        obtain ⟨bs, hbs, h⟩ := bind_eq_ok.mp h
        obtain rfl := Except.ok.inj h
        rw [List.map_cons, List.map_cons, hb, ih.mp hbs]
      · intro h
        cases results with
        | nil => simp at h
        | cons b bs =>
            rw [List.map_cons, List.map_cons, List.cons.injEq] at h
            exact ⟨b, h.1, bind_eq_ok.mpr ⟨bs, ih.mpr h.2, rfl⟩⟩

section MapM

variable {f : α → Except ε β} {list : List α} {results : List β} (h : list.mapM f = .ok results)
include h

theorem exists_of_mapM {a : α} (ha : a ∈ list) : ∃ b ∈ results, f a = .ok b := by
  have hm := List.mem_map_of_mem (f := f) ha
  rw [mapM_eq_ok.mp h] at hm
  obtain ⟨b, hb, he⟩ := List.mem_map.mp hm
  exact ⟨b, hb, he.symm⟩

theorem exists_of_mem_mapM {b : β} (hb : b ∈ results) : ∃ a ∈ list, f a = .ok b := by
  have hm := List.mem_map_of_mem (f := Except.ok (ε := ε)) hb
  rw [← mapM_eq_ok.mp h] at hm
  exact List.mem_map.mp hm

theorem length_of_mapM : results.length = list.length := by
  simpa using (congrArg List.length (mapM_eq_ok.mp h)).symm

theorem map_of_mapM {γ : Type*} {g : β → γ} {k : α → γ}
    (hg : ∀ a ∈ list, ∀ b ∈ results, f a = .ok b → g b = k a) : results.map g = list.map k := by
  have hm := mapM_eq_ok.mp h
  apply List.ext_getElem
  · rw [List.length_map, List.length_map, length_of_mapM h]
  · intro i hi hi'
    rw [List.length_map] at hi hi'
    have he : f list[i] = .ok results[i] := by
      have := List.getElem_of_eq hm (by rwa [List.length_map])
      simpa using this
    rw [List.getElem_map, List.getElem_map]
    exact hg _ (List.getElem_mem _) _ (List.getElem_mem _) he

end MapM

-- What holds at the start of a fold and is kept by its steps holds at its end;
-- the property may speak of the elements that are done.
theorem foldlM_ok {f : σ → α → Except ε σ} {P : List α → σ → Prop} {init : σ} (h : P [] init)
    (hstep : ∀ done a s s', P done s → f s a = .ok s' → P (done ++ [a]) s')
    {list : List α} {final : σ} (hf : list.foldlM f init = .ok final) : P list final := by
  induction list using List.reverseRecOn generalizing final with
  | nil =>
      obtain rfl := Except.ok.inj hf
      exact h
  | append_singleton rest a ih =>
      rw [List.foldlM_append, bind_eq_ok] at hf
      obtain ⟨s, hs, hf⟩ := hf
      rw [List.foldlM_cons, bind_eq_ok] at hf
      obtain ⟨s', hs', hf⟩ := hf
      obtain rfl := Except.ok.inj hf
      exact hstep rest a s _ (ih hs) hs'

end Msos.Library.Fallible
