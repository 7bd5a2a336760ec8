import TapeCompiler.Proofs.Scan

/-!
# Transfers at work

What a machine does in whose table a transfer has been compiled. Each part of a transfer has a lemma
that says from which spot to which spot it takes a machine, and that the cursor follows: planting
the marker, coming back to the origin, one pass of the copying loop, erasing the marker, and
restoring the block. The loop is an induction on the cells that are still to be copied. When it
starts a pass, the cells behind the head hold placeholders, and those copied so far stand in front
of the marker.

The states of the program need not be known to be new: all rules are in one table, which has at most
one rule for each situation. Only that the marker and the placeholders are new *values* is needed,
to see that the scans to them do not stop early.
-/

namespace TapeCompiler

/-! ## The parts of a transfer -/

namespace Build

variable {c c' : Compiler} {S : Stretch} {l : Layout} {origin blank marker q pass : Symbol}
  {placeholders w b a rest back front : List Symbol}

/-- From the origin to the first blank behind the destination, where the marker is put. -/
theorem plantMarker_reaches (hl : l.Apart origin blank marker placeholders)
    (hw : l.Words w b a) (hcursor : c.cursor = .ofCondition (.single origin q))
    (h : plantMarker l blank marker c = .ok () c') (hS : c'.machine.table.rules ⊆ S.table.rules)
    (hd : l.direction = S.direction) :
    ∃ q', c'.cursor = .ofCondition (.single marker q') ∧
      S.Reaches ⟨back, origin :: (w ++ l.stop :: ((b ++ l.start :: a) ++ blank :: front)), q⟩
        ⟨(b ++ l.start :: a).reverse ++ l.stop :: (w.reverse ++ origin :: back),
          marker :: front, q'⟩ := by
  rw [plantMarker] at h
  obtain ⟨q₁, c₁, h₁, h⟩ := bind_eq_ok.mp h
  obtain ⟨q₂, c₂, h₂, h₃⟩ := bind_eq_ok.mp h
  have hS₂ := ((atomic_deliver _ _).ok h₃).subset hS
  have hS₁ := ((atomic_seek _).ok h₂).subset hS₂
  have hcursor₁ := seek_cursor hcursor h₁ rfl
  have hcursor₂ := seek_cursor hcursor₁ h₂ rfl
  have hblock : ∀ x ∈ w, x ∈ l.sources ∧ x ∉ [l.stop] := by
    intro x hx
    exact ⟨Layout.mem_sources.mpr (hw.block x hx), by simpa using (hw.block_ne hl x hx).2⟩
  have hbetween : ∀ x ∈ b, x ∈ l.between ∧ x ∉ [l.start] := by
    intro x hx
    exact ⟨hw.between x hx, by simpa using (hw.between_ne hl x hx).2⟩
  have hafter : ∀ x ∈ a, x ∈ l.after ∧ x ∉ [blank] := by
    intro x hx
    exact ⟨hw.after x hx, by simpa using (hw.after_ne hl x hx).2⟩
  obtain ⟨q', hcursor', hdeliver⟩ :=
    deliver_reaches hcursor₂ h₃ hS hd hafter List.mem_cons_self
  refine ⟨q', hcursor', ?_⟩
  simp only [List.append_assoc, List.cons_append, List.reverse_append, List.reverse_cons,
    List.nil_append]
  calc
    S.Reaches _ ⟨w.reverse ++ origin :: back,
        l.stop :: (b ++ l.start :: (a ++ blank :: front)), q₁⟩ :=
      seek_reaches hcursor h₁ hS₁ hd hblock List.mem_cons_self
    S.Reaches _ ⟨b.reverse ++ l.stop :: (w.reverse ++ origin :: back),
        l.start :: (a ++ blank :: front), q₂⟩ :=
      seek_reaches hcursor₁ h₂ hS₂ hd hbetween List.mem_cons_self
    S.Reaches _ _ := hdeliver

/-- From the marker back to the origin. -/
theorem returnToOrigin_reaches (hl : l.Apart origin blank marker placeholders)
    (hw : l.Words w b a) (hcursor : c.cursor = .ofCondition (.single marker q))
    (h : returnToOrigin l origin c = .ok () c') (hS : c'.machine.table.rules ⊆ S.table.rules)
    (hd : l.direction = S.direction) :
    ∃ q', c'.cursor = .ofCondition (.single origin q') ∧
      S.Reaches
        ⟨(b ++ l.start :: a).reverse ++ l.stop :: (w.reverse ++ origin :: back),
          marker :: front, q⟩
        ⟨back, origin :: (w ++ l.stop :: ((b ++ l.start :: a) ++ marker :: front)), q'⟩ := by
  rw [returnToOrigin] at h
  obtain ⟨q₁, c₁, h₁, h⟩ := bind_eq_ok.mp h
  obtain ⟨q₂, c₂, h₂, h⟩ := bind_eq_ok.mp h
  cases h
  have hS₁ := ((atomic_seek _).ok h₂).subset hS
  have hd' : l.direction.opposite = S.direction.opposite := by rw [hd]
  have hcursor₁ := seek_cursor hcursor h₁ rfl
  have hgap : ∀ x ∈ b ++ l.start :: a,
      x ∈ l.after ++ l.between ++ [l.start] ∧ x ∉ [l.stop] := by
    intro x hx
    refine ⟨?_, by simpa using hw.gap_ne_stop hl x hx⟩
    rw [List.mem_append, List.mem_cons] at hx
    rcases hx with hx | rfl | hx
    · exact List.mem_append_left _ (List.mem_append_right _ (hw.between x hx))
    · exact List.mem_append_right _ List.mem_cons_self
    · exact List.mem_append_left _ (List.mem_append_left _ (hw.after x hx))
  have hblock : ∀ x ∈ w, x ∈ l.sources ∧ x ∉ [origin] := by
    intro x hx
    exact ⟨Layout.mem_sources.mpr (hw.block x hx), by simpa using (hw.block_ne hl x hx).1⟩
  refine ⟨q₂, seek_cursor hcursor₁ h₂ rfl, ?_⟩
  calc
    S.Reaches _ ⟨w.reverse ++ origin :: back,
        l.stop :: ((b ++ l.start :: a) ++ marker :: front), q₁⟩ :=
      seek_reaches_back hcursor h₁ hS₁ hd' hgap List.mem_cons_self
    S.Reaches _ _ := seek_reaches_back hcursor₁ h₂ hS hd' hblock List.mem_cons_self

/-- One value, from its cell to the cell of the marker, and the marker from there to the next cell.
A path of the program is found by its place in the lists of the branch. -/
theorem carryToMarker_reaches {c₁ c₂ : Compiler} {v : Symbol}
    (hl : l.Apart origin blank marker placeholders)
    (hcursor : c.cursor =
      .ofCondition (.pairs l.sources (List.replicate l.sources.length pass)))
    (h₁ : scanPairs { interior := l.crossed, terminals := [marker], direction := l.direction }
      (.relocate (l.sources.zip placeholders)) c = .ok () c₁)
    (h₂ : moveEach ⟨l.direction, some (.each l.sources), some (.same blank), .fresh⟩ c₁ = .ok () c₂)
    (h₃ : join { action := .stay, write := some marker } c₂ = .ok () c')
    (hS : c'.machine.table.rules ⊆ S.table.rules) (hd : l.direction = S.direction)
    (hv : v ∈ l.values) (hrest : ∀ x ∈ rest, x ∈ l.crossed) :
    ∃ joined, c'.cursor = .ofCondition (.single marker joined) ∧
      S.Reaches ⟨back, v :: (rest ++ marker :: blank :: front), pass⟩
        ⟨v :: (rest.reverse ++ l.stand placeholders v :: back), marker :: front, joined⟩ := by
  have hS₂ := ((atomic_join _).ok h₃).subset hS
  have hS₁ := ((atomic_moveEach _).ok h₂).subset hS₂
  obtain ⟨stop, arrived, hstop, hcursor₁, harrived, hscan⟩ := scanPairs_ok hcursor h₁
  cases hstop
  obtain ⟨writes, expected, nexts, hwrites, hexpected, hnexts, hcursor₂, hmove⟩ :=
    moveEach_ok hcursor₁ h₂
  obtain ⟨rfl, hlength⟩ := expand_each_ok hwrites
  cases hexpected
  have hsome : arrived.length ≠ 0 := by
    rw [← hlength]
    exact mt List.length_eq_zero_iff.mp hl.sources_ne_nil
  rw [ofPaths_replicate hsome] at hcursor₂
  obtain ⟨joined, hcursor', hjoin⟩ := join_ok hcursor₂ h₃
  refine ⟨joined, hcursor', ?_⟩
  -- The place of `v` among the values is that of its path among the states.
  obtain ⟨i, hi, hvi⟩ := List.mem_iff_getElem.mp (Layout.mem_sources.mpr hv)
  have hia : i < arrived.length := hlength ▸ hi
  have hin : i < nexts.length := hnexts ▸ hia
  have hsource : l.sources[i]? = some v := List.getElem?_eq_some_iff.mpr ⟨hi, hvi⟩
  obtain ⟨-, going, hrules⟩ := hscan i v pass _ hsource (List.getElem?_replicate_of_lt hi)
    (List.getElem?_eq_getElem hia)
  have hwrite := hmove i _ v _ (List.getElem?_eq_getElem hia) hsource
    (List.getElem?_eq_getElem hin)
  have hpush := hjoin _ (List.getElem_mem hin)
  have hd' : S.direction.moves = true := hd ▸ hl.moves
  have hcrossed : ∀ x ∈ rest, x ∈ Scan.crossed ⟨l.crossed ++ l.sources, [marker], l.direction,
      true, false⟩ := by
    intro x hx
    refine Scan.mem_crossed.mpr ⟨List.mem_append_left _ (hrest x hx), ?_⟩
    simpa using hl.ne_marker (hrest x hx)
  have hcarry : S.Leads (rest.length + 2) ⟨back, v :: (rest ++ marker :: blank :: front), pass⟩
      ⟨(rest.map id).reverse ++ l.stand placeholders v :: back, marker :: blank :: front,
        arrived[i]⟩ :=
    Stretch.leads_scan hd' hd (List.Subset.trans hrules hS₁) hcrossed
      (Scan.mem_stops.mpr List.mem_cons_self)
  rw [List.map_id] at hcarry
  calc
    S.Reaches _ ⟨rest.reverse ++ l.stand placeholders v :: back, marker :: blank :: front,
        arrived[i]⟩ := hcarry.reaches
    S.Reaches _ ⟨v :: (rest.reverse ++ l.stand placeholders v :: back), blank :: front,
        nexts[i]⟩ := (Stretch.leads_forward hd' (hd ▸ hS₂ hwrite)).reaches
    S.Reaches _ _ := (Stretch.leads_stay hd' (hS hpush)).reaches

/-- From the marker back to the placeholder that was put last, which is the first one met, and on to
the next cell. -/
theorem backToPass_reaches {c₁ : Compiler} {found p : Symbol}
    (hl : l.Apart origin blank marker placeholders)
    (hcursor : c.cursor = .ofCondition (.single marker q))
    (h₁ : seek
      { interior := l.crossed, terminals := placeholders, direction := l.direction.opposite } c =
        .ok found c₁)
    (h₂ : emitAll (c₁.cursor.current.entries.map fun (v, state) =>
      ⟨v, state, v, pass, l.direction⟩) c₁ = .ok () c')
    (hS : c'.machine.table.rules ⊆ S.table.rules) (hd : l.direction = S.direction)
    (hp : p ∈ placeholders) (hrest : ∀ x ∈ rest, x ∈ l.crossed) :
    S.Reaches ⟨rest.reverse ++ p :: back, marker :: front, q⟩
      ⟨p :: back, rest ++ marker :: front, pass⟩ := by
  have hS₁ := ((growing_emitAll _).ok h₂).subset hS
  have hback : l.direction.opposite = S.direction.opposite := by rw [hd]
  have hmoves : S.direction.moves = true := hd ▸ hl.moves
  have hword : ∀ x ∈ rest, x ∈ l.crossed ∧ x ∉ placeholders := by
    intro x hx
    exact ⟨hrest x hx, hl.new_placeholders x (hrest x hx)⟩
  have hentry : (p, found) ∈ c₁.cursor.current.entries := by
    rw [(scan_ok hcursor h₁).2.1]
    refine Condition.mem_entries_meeting.mpr ⟨?_, rfl⟩
    exact List.mem_eraseDups.mpr (List.mem_map.mpr ⟨p, Scan.mem_stops.mpr hp, rfl⟩)
  have hrule : ⟨p, found, p, pass, S.direction⟩ ∈ S.table.rules := by
    rw [← hd]
    exact hS ((emitAll_ok h₂ _).mpr (.inr (List.mem_map.mpr ⟨(p, found), hentry, rfl⟩)))
  calc
    S.Reaches _ ⟨back, p :: (rest ++ marker :: front), found⟩ :=
      seek_reaches_back hcursor h₁ hS₁ hback hword hp
    S.Reaches _ _ := (Stretch.leads_forward hmoves hrule).reaches

/-- One pass of the copying loop. -/
theorem copyCell_reaches {v : Symbol} (hl : l.Apart origin blank marker placeholders)
    (h : copyCell l blank marker placeholders pass c = .ok () c')
    (hS : c'.machine.table.rules ⊆ S.table.rules) (hd : l.direction = S.direction)
    (hv : v ∈ l.values) (hrest : ∀ x ∈ rest, x ∈ l.crossed) :
    S.Reaches ⟨back, v :: (rest ++ marker :: blank :: front), pass⟩
      ⟨l.stand placeholders v :: back, rest ++ v :: marker :: front, pass⟩ := by
  rw [copyCell] at h
  obtain ⟨⟨⟩, c₁, h₁, h⟩ := bind_eq_ok.mp h
  cases h₁
  obtain ⟨⟨⟩, c₂, h₂, h⟩ := bind_eq_ok.mp h
  obtain ⟨⟨⟩, c₃, h₃, h⟩ := bind_eq_ok.mp h
  obtain ⟨⟨⟩, c₄, h₄, h⟩ := bind_eq_ok.mp h
  obtain ⟨found, c₅, h₅, h⟩ := bind_eq_ok.mp h
  obtain ⟨condition, c₆, h₆, h₇⟩ := bind_eq_ok.mp h
  cases h₆
  have hS₅ := ((growing_emitAll _).ok h₇).subset hS
  have hS₄ := ((atomic_seek _).ok h₅).subset hS₅
  obtain ⟨joined, hcursor, hcarry⟩ := carryToMarker_reaches hl rfl h₂ h₃ h₄ hS₄ hd hv hrest
  have hplace : l.stand placeholders v ∈ placeholders :=
    (List.of_mem_zip (Layout.stand_mem_zip hl.one_each hv)).2
  have hrest' := Layout.crossed_concat hrest hv
  have hback : S.Reaches
      ⟨(rest ++ [v]).reverse ++ l.stand placeholders v :: back, marker :: front, joined⟩
      ⟨l.stand placeholders v :: back, (rest ++ [v]) ++ marker :: front, pass⟩ :=
    backToPass_reaches hl hcursor h₅ h₇ hS hd hplace hrest'
  simp only [List.reverse_append, List.append_assoc, List.singleton_append,
    List.reverse_singleton] at hback
  exact hcarry.trans hback

/-- The copying loop, from the first cell of the block to the cell behind it. -/
theorem copyCells_reach {gap done : List Symbol} (hl : l.Apart origin blank marker placeholders)
    (h : copyCell l blank marker placeholders pass c = .ok () c')
    (hS : c'.machine.table.rules ⊆ S.table.rules) (hd : l.direction = S.direction)
    (hw : ∀ x ∈ w, x ∈ l.values) (hgap : ∀ x ∈ gap ++ done, x ∈ l.crossed) :
    S.Reaches
      ⟨back, w ++ (gap ++ done) ++ marker :: (List.replicate w.length blank ++ front), pass⟩
      ⟨(w.map (l.stand placeholders)).reverse ++ back, gap ++ done ++ w ++ marker :: front,
        pass⟩ := by
  -- A pass moves one value from the block, `w`, to what has been copied so far, `done`.
  induction w generalizing back done with
  | nil => simpa using Stretch.Reaches.refl S _
  | cons v w ih =>
    have hv : v ∈ l.values := hw v List.mem_cons_self
    have hw' : ∀ x ∈ w, x ∈ l.values := fun x hx => hw x (List.mem_cons_of_mem v hx)
    have hrest : ∀ x ∈ w ++ (gap ++ done), x ∈ l.crossed := by
      intro x hx
      rcases List.mem_append.mp hx with hx | hx
      · exact Layout.mem_crossed.mpr (.inl (hw' x hx))
      · exact hgap x hx
    have hgap' : ∀ x ∈ gap ++ (done ++ [v]), x ∈ l.crossed := by
      rw [← List.append_assoc]
      exact Layout.crossed_concat hgap hv
    have hpass : S.Reaches ⟨back, v :: ((w ++ (gap ++ done)) ++ marker :: blank ::
        (List.replicate w.length blank ++ front)), pass⟩ _ :=
      copyCell_reaches hl h hS hd hv hrest
    have hloop : S.Reaches ⟨l.stand placeholders v :: back, w ++ (gap ++ (done ++ [v])) ++
        marker :: (List.replicate w.length blank ++ front), pass⟩ _ := ih hw' hgap'
    have hgo := hpass.trans (by simpa using hloop)
    simpa [List.replicate_succ] using hgo

/-- From the cell behind the block to the marker, which is erased, and back. -/
theorem eraseMarker_reaches (hl : l.Apart origin blank marker placeholders)
    (h : eraseMarker l blank marker pass c = .ok () c')
    (hS : c'.machine.table.rules ⊆ S.table.rules) (hd : l.direction = S.direction)
    (hrest : ∀ x ∈ rest, x ∈ l.crossed) (hstop : ∀ x ∈ rest, x ≠ l.stop) :
    ∃ q', c'.cursor = .ofCondition (.single l.stop q') ∧
      S.Reaches ⟨back, l.stop :: (rest ++ marker :: front), pass⟩
        ⟨back, l.stop :: (rest ++ blank :: front), q'⟩ := by
  rw [eraseMarker] at h
  obtain ⟨⟨⟩, c₁, h₁, h⟩ := bind_eq_ok.mp h
  cases h₁
  obtain ⟨⟨⟩, c₂, h₂, h⟩ := bind_eq_ok.mp h
  obtain ⟨q', c₃, h₃, h⟩ := bind_eq_ok.mp h
  cases h
  have hS₂ := ((atomic_seek _).ok h₃).subset hS
  have hback : l.direction.opposite = S.direction.opposite := by rw [hd]
  have hforth : ∀ x ∈ rest, x ∈ l.crossed ∧ x ∉ [marker] := by
    intro x hx
    exact ⟨hrest x hx, by simpa using hl.ne_marker (hrest x hx)⟩
  have hreturn : ∀ x ∈ rest, x ∈ l.crossed ∧ x ∉ [l.stop] := by
    intro x hx
    exact ⟨hrest x hx, by simpa using hstop x hx⟩
  obtain ⟨q₂, hcursor, hdeliver⟩ := deliver_reaches rfl h₂ hS₂ hd hforth List.mem_cons_self
  refine ⟨q', seek_cursor hcursor h₃ rfl, ?_⟩
  calc
    S.Reaches _ ⟨rest.reverse ++ l.stop :: back, blank :: front, q₂⟩ := hdeliver
    S.Reaches _ _ := seek_reaches_back hcursor h₃ hS hback hreturn List.mem_cons_self

/-- From the cell behind the block back to the origin, over placeholders that are replaced. -/
theorem restoreBlock_reaches {restored : List Symbol} {found left : Symbol → Symbol} {v : Symbol}
    (hmoves : S.direction.moves = true) (hcursor : c.cursor = .ofCondition (.single v q))
    (h : restoreBlock l origin placeholders restored c = .ok () c')
    (hS : c'.machine.table.rules ⊆ S.table.rules) (hd : l.direction = S.direction)
    (hw : ∀ x ∈ w, (found x, left x) ∈ placeholders.zip restored) :
    ∃ done, c'.cursor = .ofCondition (.single origin done) ∧
      S.Reaches ⟨(w.map found).reverse ++ origin :: back, v :: front, q⟩
        ⟨back, origin :: (w.map left ++ v :: front), done⟩ := by
  rw [restoreBlock] at h
  obtain ⟨cleanup, c₁, h₁, h⟩ := bind_eq_ok.mp h
  obtain ⟨⟨⟩, c₂, h₂, h⟩ := bind_eq_ok.mp h
  obtain ⟨done, c₃, h₃, h⟩ := bind_eq_ok.mp h
  cases h₃
  obtain ⟨⟨⟩, c₄, h₄, h⟩ := bind_eq_ok.mp h
  cases h
  have hS₂ : c₂.machine.table.rules ⊆ S.table.rules := fun r hr =>
    hS ((emit_ok h₄ r).mpr (.inl hr))
  have hS₁ := ((growing_emitAll _).ok h₂).subset hS₂
  obtain ⟨-, -, hmove⟩ := move_ok hcursor rfl h₁
  have hleave : ⟨v, q, v, cleanup, S.direction.opposite⟩ ∈ S.table.rules := by
    rw [← hd]
    exact hS₁ ((hmove _).mpr (.inr rfl))
  have hover : ∀ x ∈ w.reverse,
      ⟨found x, cleanup, left x, cleanup, S.direction.opposite⟩ ∈ S.table.rules := by
    intro x hx
    rw [← hd]
    refine hS₂ ((emitAll_ok h₂ _).mpr (.inr (List.mem_map.mpr ⟨(found x, left x), ?_, rfl⟩)))
    exact hw x (List.mem_reverse.mp hx)
  have harrive := hS ((emit_ok h₄ _).mpr (.inr rfl))
  have hpass : S.Leads _ ⟨w.reverse.map found ++ origin :: back, v :: front, q⟩ _ :=
    Stretch.leads_pass_back hmoves hleave hover harrive
  rw [List.map_reverse, List.map_reverse, List.reverse_reverse] at hpass
  exact ⟨_, rfl, hpass.reaches⟩

/-- A transfer that succeeds has checked its layout, made up a marker and placeholders, and compiled
its parts one after the other. -/
theorem transfer_ok {erase : Bool} (hcursor : c.cursor = .ofCondition (.single origin q))
    (hblank : c.machine.tape.blank = blank) (h : transfer l erase c = .ok () c') :
    ∃ marker placeholders pass c₁ c₂ c₃ c₄ c₅ c₆,
      l.Apart origin blank marker placeholders ∧ plantMarker l blank marker c₁ = .ok () c₂ ∧
      c₁.cursor = c.cursor ∧ returnToOrigin l origin c₂ = .ok () c₃ ∧
      move { action := l.direction, next := some .fresh } c₃ = .ok pass c₄ ∧
      copyCell l blank marker placeholders pass c₄ = .ok () c₅ ∧
      eraseMarker l blank marker pass c₅ = .ok () c₆ ∧
      restoreBlock l origin placeholders
        (if erase then List.replicate l.sources.length blank else l.sources) c₆ = .ok () c' := by
  rw [transfer] at h
  obtain ⟨p, c₀, h₀, h⟩ := bind_eq_ok.mp (atomic_eq_ok.mp h)
  obtain ⟨rfl, rfl⟩ := single_ok hcursor h₀
  obtain ⟨filler, c₀, h₀, h⟩ := bind_eq_ok.mp h
  cases h₀
  obtain ⟨⟨⟩, c₀, h₀, h⟩ := bind_eq_ok.mp h
  obtain ⟨hcheck, rfl⟩ := ofExcept_eq_ok.mp h₀
  obtain ⟨⟨⟩, c₁, h₁, h⟩ := bind_eq_ok.mp h
  cases h₁
  obtain ⟨marker, c₁, h₁, h⟩ := bind_eq_ok.mp h
  cases h₁
  obtain ⟨placeholders, c₁, h₁, h⟩ := bind_eq_ok.mp h
  cases h₁
  obtain ⟨⟨⟩, c₂, h₂, h⟩ := bind_eq_ok.mp h
  obtain ⟨⟨⟩, c₃, h₃, h⟩ := bind_eq_ok.mp h
  obtain ⟨pass, c₄, h₄, h⟩ := bind_eq_ok.mp h
  obtain ⟨⟨⟩, c₅, h₅, h⟩ := bind_eq_ok.mp h
  obtain ⟨⟨⟩, c₆, h₆, h⟩ := bind_eq_ok.mp h
  cases hblank
  have hreserved : ∀ x ∈ l.crossed, (c.values.reserveAll
      (l.crossed ++ [origin, c.machine.tape.blank])).isReserved x = true := by
    intro x hx
    exact NameSupply.isReserved_reserveAll.mpr (.inl (List.mem_append_left _ hx))
  exact ⟨_, _, pass, _, c₂, c₃, c₄, c₅, c₆, .of_check hcheck hreserved, h₂, rfl, h₃, h₄, h₅, h₆, h⟩

/-- A compiled transfer, from the origin back to the origin. -/
theorem transfer_reaches {erase : Bool} (hcursor : c.cursor = .ofCondition (.single origin q))
    (hblank : c.machine.tape.blank = blank) (h : transfer l erase c = .ok () c')
    (hS : c'.machine.table.rules ⊆ S.table.rules) (hd : l.direction = S.direction)
    (hw : l.Words w b a) :
    S.direction.moves = true ∧ ∃ done, c'.cursor = .ofCondition (.single origin done) ∧
      S.Reaches
        ⟨back, origin :: (w ++ l.stop :: ((b ++ l.start :: a) ++
          List.replicate (w.length + 1) blank)), q⟩
        ⟨back, origin :: (w.map (fun x => if erase then blank else x) ++
          l.stop :: ((b ++ l.start :: a) ++ w ++ [blank])), done⟩ := by
  obtain ⟨marker, placeholders, pass, c₁, c₂, c₃, c₄, c₅, c₆, hl, h₁, hcursor₁, h₂, h₃, h₄, h₅,
    h₆⟩ := transfer_ok hcursor hblank h
  have hmoves : S.direction.moves = true := hd ▸ hl.moves
  refine ⟨hmoves, ?_⟩
  have hS₆ := ((growing_restoreBlock _ _ _ _).ok h₆).subset hS
  have hS₅ := ((growing_eraseMarker _ _ _ _).ok h₅).subset hS₆
  have hS₄ := ((growing_copyCell _ _ _ _ _).ok h₄).subset hS₅
  have hS₃ := ((atomic_move _).ok h₃).subset hS₄
  have hS₂ := ((growing_returnToOrigin _ _).ok h₂).subset hS₃
  obtain ⟨q₂, hcursor₂, hplant⟩ := plantMarker_reaches hl hw (hcursor₁.trans hcursor) h₁ hS₂ hd
  obtain ⟨q₃, hcursor₃, hreturn⟩ := returnToOrigin_reaches hl hw hcursor₂ h₂ hS₃ hd
  obtain ⟨-, -, hmove⟩ := move_ok hcursor₃ rfl h₃
  have henter : ⟨origin, q₃, origin, pass, S.direction⟩ ∈ S.table.rules := by
    rw [← hd]
    exact hS₄ ((hmove _).mpr (.inr rfl))
  have hgap : ∀ x ∈ l.stop :: (b ++ l.start :: a) ++ [], x ∈ l.crossed := by
    intro x hx
    rw [List.append_nil, List.mem_cons] at hx
    rcases hx with rfl | hx
    · exact Layout.mem_crossed.mpr (.inr (.inl rfl))
    · exact hw.gap_crossed x hx
  have hcopy : S.Reaches ⟨origin :: back, w ++ (l.stop :: (b ++ l.start :: a) ++ []) ++
      marker :: (List.replicate w.length blank ++ []), pass⟩ _ :=
    copyCells_reach hl h₄ hS₅ hd hw.block hgap
  have hrest : ∀ x ∈ (b ++ l.start :: a) ++ w, x ∈ l.crossed := by
    intro x hx
    exact (List.mem_append.mp hx).elim (hw.gap_crossed x) (hw.block_crossed x)
  have hstop : ∀ x ∈ (b ++ l.start :: a) ++ w, x ≠ l.stop := by
    intro x hx
    exact (List.mem_append.mp hx).elim (hw.gap_ne_stop hl x) fun hx => (hw.block_ne hl x hx).2
  obtain ⟨q₆, hcursor₆, herase⟩ := eraseMarker_reaches hl h₅ hS₆ hd hrest hstop
  obtain ⟨done, hcursor', hrestore⟩ := restoreBlock_reaches hmoves hcursor₆ h₆ hS hd
    fun x hx => Layout.restored_mem_zip hl.one_each (hw.block x hx) erase
  refine ⟨done, hcursor', ?_⟩
  calc
    S.Reaches _
        ⟨(b ++ l.start :: a).reverse ++ l.stop :: (w.reverse ++ origin :: back),
          marker :: List.replicate w.length blank, q₂⟩ := hplant
    S.Reaches _ ⟨back, origin :: (w ++ l.stop :: ((b ++ l.start :: a) ++
        marker :: List.replicate w.length blank)), q₃⟩ := hreturn
    S.Reaches _ ⟨origin :: back, w ++ l.stop :: ((b ++ l.start :: a) ++
        marker :: List.replicate w.length blank), pass⟩ :=
      (Stretch.leads_forward hmoves henter).reaches
    S.Reaches _ ⟨(w.map (l.stand placeholders)).reverse ++ origin :: back,
        l.stop :: ((b ++ l.start :: a) ++ w ++ [marker]), pass⟩ := by simpa using hcopy
    S.Reaches _ ⟨(w.map (l.stand placeholders)).reverse ++ origin :: back,
        l.stop :: ((b ++ l.start :: a) ++ w ++ [blank]), q₆⟩ := herase
    S.Reaches _ _ := hrestore

end Build

namespace Compiler

/-- **A compiled transfer copies its block, or moves it.** Read from the origin, the tape holds the
block `w`, the borders with the words between and after them, and one blank more than the block is
long. Then the machine halts where it started, the block stands behind the last of these words, its
own cells hold what they held or, if it was moved, blanks, and all other cells are as they were. -/
theorem transfer_runs {c c₁ c₂ : Compiler} {origin q : Symbol}
    (hcursor : c.cursor = .ofCondition (.single origin q)) {l : Layout} {erase : Bool}
    (htransfer : Build.transfer l erase c = .ok () c₁) (hhalt : Build.halt c₁ = .ok () c₂)
    {m : Machine} (htable : m.table = c₂.machine.table) (hm : m.halted = false)
    (hq : m.state = q) {w b a : List Symbol} (hw : ∀ x ∈ w, x ∈ l.values)
    (hb : ∀ x ∈ b, x ∈ l.between) (ha : ∀ x ∈ a, x ∈ l.after)
    (htape : m.tape.Along l.direction m.head
      ([origin] ++ w ++ [l.stop] ++ b ++ [l.start] ++ a ++
        List.replicate (w.length + 1) c.machine.tape.blank)) :
    ∃ n m', m.run n = (.halted, m') ∧
      m.Rewrites m' l.direction 0
        ([origin] ++ (if erase then List.replicate w.length c.machine.tape.blank else w) ++
          [l.stop] ++ b ++ [l.start] ++ a ++ w ++ [c.machine.tape.blank]) := by
  have hS₁ : c₁.machine.table.rules ⊆ (m.stretch l.direction).table.rules := by
    rw [Machine.stretch, htable]
    exact (Build.atomic_halt.ok hhalt).rules.subset
  obtain ⟨hmoves, done, hcursor₁, n, hleads⟩ :=
    Build.transfer_reaches hcursor rfl htransfer hS₁ rfl ⟨hw, hb, ha⟩
  have hstart : m.At (m.stretch l.direction) ⟨[], origin :: (w ++ l.stop :: ((b ++ l.start :: a) ++
      List.replicate (w.length + 1) c.machine.tape.blank)), q⟩ :=
    .of_along hm hq (by simpa using htape)
  have hd : l.direction.moves = true := hmoves
  obtain ⟨m₁, hrun, hm₁⟩ := hleads m hstart
  have hrule : ⟨origin, done, origin, done, .halt⟩ ∈ m.table.rules := by
    rw [htable]
    exact Build.halt_ok hcursor₁ hhalt
  obtain ⟨m', hrun', hrewrites⟩ := Machine.run_halt hd hrun hm₁ hrule
  refine ⟨n + 1, m', hrun', ?_⟩
  cases erase with
  | true => simpa [List.map_const'] using hrewrites
  | false => simpa using hrewrites

/-- A compiler at the right end of the tape `= | _ 1 <`. -/
def atBlock : Compiler :=
  ofMachine (.start ⟨["=", "|", "_", "1", "<"], 4, "_", "q1", []⟩ .empty)

/-- A block of ones and blanks between `<` and `|`, read to the left, that goes behind `=`. -/
def blockLeft : Layout where
  values := ["1", "_"]
  stop := "|"
  between := []
  start := "="
  after := []
  direction := .left

/-- A blank of the block is moved like any other value. -/
theorem transfer_runs_atBlock :
    ∃ c₁ c₂ n m', Build.transfer blockLeft true atBlock = .ok () c₁ ∧
      Build.halt c₁ = .ok () c₂ ∧ c₂.machine.run n = (.halted, m') ∧
      c₂.machine.Rewrites m' .left 0 ["<", "_", "_", "|", "=", "1", "_", "_"] := by
  have hready : atBlock.Ready "<" "q1" := ready_ofMachine fun r hr => by cases hr
  obtain ⟨done, c₁, htransfer, hready₁⟩ := Build.exists_transfer (l := blockLeft) true hready rfl
  obtain ⟨c₂, hhalt⟩ := Build.exists_halt hready₁
  have hmachine := (((Build.atomic_transfer _ _).ok htransfer).trans
    (Build.atomic_halt.ok hhalt)).machine
  have htape : c₂.machine.tape.Along .left c₂.machine.head
      ["<", "1", "_", "|", "=", "_", "_", "_"] := by
    rw [hmachine]
    simp only [Tape.along_cons]
    exact ⟨rfl, rfl, rfl, rfl, rfl, rfl, rfl, rfl, fun k x hx => by cases hx⟩
  obtain ⟨n, m', hrun, hrewrites⟩ := transfer_runs (w := ["1", "_"]) (b := []) (a := [])
    hready.cursor htransfer hhalt rfl (by rw [hmachine]; rfl) (by rw [hmachine]; rfl) (by decide)
    (by decide) (by decide) htape
  exact ⟨c₁, c₂, n, m', htransfer, hhalt, hrun, hrewrites⟩

end Compiler

end TapeCompiler
