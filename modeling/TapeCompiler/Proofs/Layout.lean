import TapeCompiler.Compiler.Transfer
import TapeCompiler.Proofs.Reserved

/-!
# The symbols of a transfer

What the check of a layout grants, together with a marker and placeholders that are new: no scan of
a transfer stops early, and no two of its rules are for the same situation. `Layout.Words` says what
the words on the tape are made of, and `Layout.stand` which placeholder stands for a value.
-/

namespace TapeCompiler

namespace Layout

variable {l : Layout} {origin blank marker x v : Symbol} {placeholders : List Symbol}

theorem mem_sources : x ∈ l.sources ↔ x ∈ l.values := List.mem_eraseDups

theorem mem_crossed :
    x ∈ l.crossed ↔
      x ∈ l.values ∨ x = l.stop ∨ x ∈ l.between ∨ x = l.start ∨ x ∈ l.after := by
  simp only [crossed, List.mem_eraseDups, List.mem_append, List.mem_singleton, or_assoc]

/-- What is crossed may be followed by a value of the block. -/
theorem crossed_concat {rest : List Symbol} (hrest : ∀ x ∈ rest, x ∈ l.crossed)
    (hv : v ∈ l.values) : ∀ x ∈ rest ++ [v], x ∈ l.crossed := by
  intro x hx
  rcases List.mem_append.mp hx with hx | hx
  · exact hrest x hx
  · rw [List.mem_singleton] at hx
    exact mem_crossed.mpr (.inl (hx ▸ hv))

theorem firstRepeated_eq_none {ss : List Symbol} : firstRepeated ss = none ↔ ss.Nodup := by
  induction ss with
  | nil => simp [firstRepeated]
  | cons s rest ih =>
    rw [firstRepeated, List.nodup_cons, ← ih]
    by_cases h : s ∈ rest
    · simp [h]
    · simp [h]

/-- What a transfer needs to tell its symbols apart: the layout passes its check, and the marker and
the placeholders, one for each value of the block, are not among the values that it crosses. -/
structure Apart (l : Layout) (origin blank marker : Symbol) (placeholders : List Symbol) :
    Prop where
  moves : l.direction.moves = true
  values : l.values ≠ []
  distinct : (l.boundaries origin).Nodup
  border : ∀ s ∈ l.boundaries origin, s ∉ l.inside
  end_after : blank ∉ l.after
  new_marker : marker ∉ l.crossed
  new_placeholders : ∀ x ∈ l.crossed, x ∉ placeholders
  one_each : placeholders.length = l.sources.length

/-- A layout that passes its check, with a marker and placeholders from a supply in which all values
that are crossed are reserved. -/
theorem Apart.of_check (h : l.check origin blank = .ok ()) {s : NameSupply}
    (hs : ∀ x ∈ l.crossed, s.isReserved x = true) :
    l.Apart origin blank s.pop.1 (s.pop.2.take l.sources.length).1 := by
  have hmarker : s.pop.1 ∉ l.crossed := fun hx => NameSupply.ne_pop_of_isReserved (hs _ hx) rfl
  have hplaceholders : ∀ x ∈ l.crossed, x ∉ (s.pop.2.take l.sources.length).1 := by
    intro x hx hmem
    have hfree := NameSupply.isReserved_of_mem_take hmem
    rw [NameSupply.isReserved_snd_pop.mpr (.inr (hs x hx))] at hfree
    cases hfree
  rw [check] at h
  by_cases hd : l.direction.moves = true
  case neg => simp [hd] at h
  by_cases hv : l.values = []
  · simp [hd, hv] at h
  cases hr : firstRepeated (l.boundaries origin) with
  | some s => simp [hd, hv, hr] at h
  | none =>
    cases hf : (l.boundaries origin).find? l.inside.contains with
    | some s =>
      simp only [hd, hv, hr, hf, Bool.not_true, Bool.false_eq_true, if_false] at h
      cases h
    | none =>
      by_cases hb : blank ∈ l.after
      · simp only [hd, hv, hr, hf, List.contains_iff_mem, hb, Bool.not_true, Bool.false_eq_true,
          if_false, if_true] at h
        cases h
      · refine ⟨hd, hv, firstRepeated_eq_none.mp hr, ?_, hb, hmarker, hplaceholders,
          NameSupply.length_take _⟩
        intro s hs
        simpa using List.find?_eq_none.mp hf s hs

namespace Apart

variable (h : l.Apart origin blank marker placeholders)

include h

theorem ne_boundary (hx : x ∈ l.inside) : x ≠ origin ∧ x ≠ l.stop ∧ x ≠ l.start := by
  have hne : ∀ s ∈ l.boundaries origin, x ≠ s := by
    rintro s hs rfl
    exact h.border x hs hx
  simpa [boundaries] using hne

theorem stop_ne_start : l.stop ≠ l.start := by
  have hnodup : [l.stop, l.start].Nodup := (List.nodup_cons.mp h.distinct).2
  simpa using hnodup

theorem sources_ne_nil : l.sources ≠ [] := by
  obtain ⟨v, hv⟩ := List.exists_mem_of_ne_nil _ h.values
  exact List.ne_nil_of_mem (mem_sources.mpr hv)

theorem stop_notMem_sources : l.stop ∉ l.sources := by
  intro hmem
  have hinside : l.stop ∈ l.inside :=
    List.mem_append_left _ (List.mem_append_left _ (mem_sources.mp hmem))
  exact (h.ne_boundary hinside).2.1 rfl

theorem ne_marker (hx : x ∈ l.crossed) : x ≠ marker := by
  rintro rfl
  exact h.new_marker hx

end Apart

/-- The placeholder that stands for a value of the block. -/
def stand (l : Layout) (placeholders : List Symbol) : Symbol → Symbol :=
  (Edit.relocate (l.sources.zip placeholders)).start

/-- A value and its placeholder have the same place in the two lists. -/
theorem stand_mem_zip (hlength : placeholders.length = l.sources.length) (hv : v ∈ l.values) :
    (v, l.stand placeholders v) ∈ l.sources.zip placeholders := by
  have hfst : v ∈ (l.sources.zip placeholders).map Prod.fst := by
    rw [List.map_fst_zip (by omega)]
    exact mem_sources.mpr hv
  obtain ⟨⟨u, p⟩, hp, rfl⟩ := List.mem_map.mp hfst
  cases hlookup : (l.sources.zip placeholders).reverse.lookup u with
  | none =>
    have hnone := List.lookup_eq_none_iff.mp hlookup (u, p) (List.mem_reverse.mpr hp)
    simp at hnone
  | some p' =>
    obtain ⟨front, back, heq, -⟩ := List.lookup_eq_some_iff.mp hlookup
    have hmem : (u, p') ∈ (l.sources.zip placeholders).reverse := by
      rw [heq]
      simp
    have hstand : l.stand placeholders u = p' := by
      simp [stand, Edit.relocate, hlookup]
    rw [hstand]
    exact List.mem_reverse.mp hmem

/-- What a transfer leaves in the cells of the block has the same place as their placeholders. -/
theorem restored_mem_zip (hlength : placeholders.length = l.sources.length) (hv : v ∈ l.values)
    (erase : Bool) :
    (l.stand placeholders v, if erase then blank else v) ∈
      placeholders.zip
        (if erase then List.replicate l.sources.length blank else l.sources) := by
  obtain ⟨i, hi⟩ := List.mem_iff_getElem?.mp (stand_mem_zip hlength hv)
  obtain ⟨hsource, hplace⟩ := List.getElem?_zip_eq_some.mp hi
  apply List.mem_of_getElem? (i := i)
  rw [List.getElem?_zip_eq_some]
  refine ⟨hplace, ?_⟩
  cases erase with
  | true => exact List.getElem?_replicate_of_lt (List.getElem?_eq_some_iff.mp hsource).1
  | false => exact hsource

/-- The words that a transfer meets: the block, and what stands between and after the borders. -/
structure Words (l : Layout) (w b a : List Symbol) : Prop where
  block : ∀ x ∈ w, x ∈ l.values
  between : ∀ x ∈ b, x ∈ l.between
  after : ∀ x ∈ a, x ∈ l.after

namespace Words

variable {w b a : List Symbol} (h : l.Words w b a)

include h

/-- All that a transfer meets behind the block is among the values that it crosses. -/
theorem gap_crossed : ∀ x ∈ b ++ l.start :: a, x ∈ l.crossed := by
  intro x hx
  rw [List.mem_append, List.mem_cons] at hx
  rw [mem_crossed]
  rcases hx with hx | rfl | hx
  · exact .inr (.inr (.inl (h.between x hx)))
  · exact .inr (.inr (.inr (.inl rfl)))
  · exact .inr (.inr (.inr (.inr (h.after x hx))))

theorem block_crossed : ∀ x ∈ w, x ∈ l.crossed := fun x hx => mem_crossed.mpr (.inl (h.block x hx))

theorem block_ne (hl : l.Apart origin blank marker placeholders) :
    ∀ x ∈ w, x ≠ origin ∧ x ≠ l.stop := by
  intro x hx
  have hne := hl.ne_boundary (List.mem_append_left _ (List.mem_append_left _ (h.block x hx)))
  exact ⟨hne.1, hne.2.1⟩

theorem between_ne (hl : l.Apart origin blank marker placeholders) :
    ∀ x ∈ b, x ≠ l.stop ∧ x ≠ l.start := by
  intro x hx
  exact (hl.ne_boundary (List.mem_append_left _ (List.mem_append_right _ (h.between x hx)))).2

theorem after_ne (hl : l.Apart origin blank marker placeholders) :
    ∀ x ∈ a, x ≠ l.stop ∧ x ≠ blank := by
  intro x hx
  refine ⟨(hl.ne_boundary (List.mem_append_right _ (h.after x hx))).2.1, ?_⟩
  rintro rfl
  exact hl.end_after (h.after x hx)

/-- The value behind the block is not met again. -/
theorem gap_ne_stop (hl : l.Apart origin blank marker placeholders) :
    ∀ x ∈ b ++ l.start :: a, x ≠ l.stop := by
  intro x hx
  rw [List.mem_append, List.mem_cons] at hx
  rcases hx with hx | rfl | hx
  · exact (h.between_ne hl x hx).1
  · exact hl.stop_ne_start.symm
  · exact (h.after_ne hl x hx).1

end Words

end Layout

end TapeCompiler
