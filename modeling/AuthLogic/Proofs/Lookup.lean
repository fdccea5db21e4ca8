import AuthLogic.Catalogue

/-! # Entries of catalogues

A catalogue is determined by its entries, and finding an entry is membership
under a key. Adding entries does not replace what is found already.
-/

namespace AuthLogic.Catalogue

variable {α κ : Type} [Ord κ] {key : α → κ}

/-- Two entries with one key are one entry, as the keys increase strictly. -/
theorem eq_of_key_eq [Std.ReflOrd κ] {a : Catalogue key} {b c : α} (hb : b ∈ a.entries)
    (hc : c ∈ a.entries) (h : key b = key c) : b = c := by
  have hd : a.entries.Pairwise fun d e => key d ≠ key e := a.sorted.imp fun hlt he => by
    rw [he, Std.ReflOrd.compare_self] at hlt
    exact absurd hlt (by decide)
  generalize a.entries = l at hb hc hd
  induction hd with
  | nil => exact absurd hb List.not_mem_nil
  | cons hd _ ih =>
    rcases List.mem_cons.mp hb with rfl | hb' <;> rcases List.mem_cons.mp hc with rfl | hc'
    · rfl
    · exact absurd h (hd _ hc')
    · exact absurd h.symm (hd _ hb')
    · exact ih hb' hc'

theorem find?_eq_some_iff [Std.LawfulEqOrd κ] {a : Catalogue key} {k : κ} {e : α} :
    a.find? k = some e ↔ e ∈ a.entries ∧ key e = k := by
  have hk (b : α) : (compare (key b) k).isEq = true ↔ key b = k := by
    rw [Ordering.isEq_iff_eq_eq, Std.compare_eq_iff_eq]
  have hs {b : α} (h : a.find? k = some b) : b ∈ a.entries ∧ key b = k := by
    have hb := List.find?_some h
    exact ⟨List.mem_of_find?_eq_some h, (hk b).mp hb⟩
  constructor
  · exact hs
  · rintro ⟨he, hek⟩
    obtain ⟨b, hb⟩ : ∃ b, a.find? k = some b :=
      Option.isSome_iff_exists.mp (List.find?_isSome.mpr ⟨e, he, (hk e).mpr hek⟩)
    obtain ⟨hm, hbk⟩ := hs hb
    rw [hb, eq_of_key_eq hm he (hbk.trans hek.symm)]

theorem contains_iff [Std.LawfulEqOrd κ] {a : Catalogue key} {k : κ} :
    a.contains k = true ↔ ∃ e ∈ a.entries, key e = k := by
  simp only [contains, Option.isSome_iff_exists, find?_eq_some_iff]

variable [Std.TransOrd κ]

/-- Both list the same entries, in the one order that there is. -/
theorem ext_find? [Std.LawfulEqOrd κ] {a b : Catalogue key} (h : ∀ k, a.find? k = b.find? k) :
    a = b := by
  have hmem (e : α) : e ∈ a.entries ↔ e ∈ b.entries := by
    have hfind (c : Catalogue key) : e ∈ c.entries ↔ c.find? (key e) = some e := by
      rw [find?_eq_some_iff, and_iff_left rfl]
    rw [hfind, hfind, h]
  let before (d e : α) : Prop := compare (key d) (key e) = .lt
  have hirrefl (e : α) : ¬ before e e := by
    change compare (key e) (key e) ≠ .lt
    rw [Std.ReflOrd.compare_self]
    decide
  have hnodup (c : Catalogue key) : c.entries.Nodup := by
    refine c.sorted.imp ?_
    rintro d _ hlt rfl
    exact hirrefl d hlt
  refine ext (List.Perm.eq_of_pairwise (fun d e _ _ hde hed => ?_) a.sorted b.sorted
    ((List.perm_ext_iff_of_nodup (hnodup a) (hnodup b)).mpr hmem))
  exact absurd (Std.TransCmp.lt_trans hde hed) (hirrefl d)

theorem find?_add (a : Catalogue key) (e : α) (k : κ) :
    (a.add e).find? k = (a.find? k).or ([e].find? fun d => (compare (key d) k).isEq) := by
  by_cases hk : compare (key e) k = .eq
  · have hkey (b : α) : compare (key b) k = compare (key b) (key e) :=
      (Std.TransCmp.congr_right hk).symm
    have hfind (b : Catalogue key) : b.find? k = b.find? (key e) := by
      simp only [find?, hkey]
    rw [List.find?_cons_of_pos (by rw [hk]; rfl), hfind, hfind, add, contains]
    cases ha : a.find? (key e) with
    | none => exact find?_insert_self a e
    | some d => exact ha
  · have hnone : [e].find? (fun d => (compare (key d) k).isEq) = none := by
      simpa [Ordering.isEq_iff_eq_eq] using hk
    rw [hnone, Option.or_none, add]
    split
    · rfl
    · exact find?_insert_of_ne a hk

/-- What is found first is found in the catalogue itself, and then in the order of the list. -/
theorem find?_foldl_add (l : List α) (a : Catalogue key) (k : κ) :
    (l.foldl add a).find? k = (a.find? k).or (l.find? fun e => (compare (key e) k).isEq) := by
  induction l generalizing a with
  | nil => exact Option.or_none.symm
  | cons e l ih =>
    rw [List.foldl_cons, ih, find?_add, Option.or_assoc, ← List.singleton_append (l := l),
      List.find?_append]

theorem exists_mem_ofFirst_iff [Std.LawfulEqOrd κ] {l : List α} {k : κ} :
    (∃ e ∈ (ofFirst l : Catalogue key).entries, key e = k) ↔ ∃ e ∈ l, key e = k := by
  rw [← contains_iff, contains_ofFirst]
  simp only [List.any_eq_true, Ordering.isEq_iff_eq_eq, Std.compare_eq_iff_eq]

end AuthLogic.Catalogue
