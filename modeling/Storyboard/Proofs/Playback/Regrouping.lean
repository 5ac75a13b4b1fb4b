import Storyboard.Animation.Recorded
import Storyboard.Proofs.Playback.Causality
import Storyboard.Proofs.Playback.Together

/-! # Children in place of a group

A sequence may hold sequences, and a parallel animation parallel animations. It makes no
difference if it holds the children of these in their place: whatever is called, the children
receive the same calls in the same order, and the answers are the same.
-/

namespace Storyboard

variable {α W : Type}

/-- All children, those of a group in its place. -/
def inPlace (items : List (α ⊕ List α)) : List α :=
  items.flatMap (Sum.elim (fun a => [a]) id)

/-! ## Sequences in a sequence -/

namespace Sequence

/-- The children that stand in the place of an item. -/
def leaves : α ⊕ Sequence α → List α
  | .inl a => [a]
  | .inr q => q.children

/-- Items that have not been reached. A sequence among them has children, stands at the first
one, and does not play. -/
def Fresh : α ⊕ Sequence α → Prop
  | .inl _ => True
  | .inr q => q.children ≠ [] ∧ q.cursor = 0 ∧ q.running = false

/-- A cursor in a list of items stands where another one does in the list of all their leaves.
The sequence at the cursor plays if the whole does. -/
inductive Spread (running : Bool) : ℕ → List (α ⊕ Sequence α) → ℕ → List α → Prop
  | nil : Spread running 0 [] 0 []
  | leaf {a : α} {rest : List (α ⊕ Sequence α)} (fresh : ∀ i ∈ rest, Fresh i) :
      Spread running 0 (.inl a :: rest) 0 (a :: rest.flatMap leaves)
  | inner {q : Sequence α} {rest : List (α ⊕ Sequence α)} (within : q.cursor < q.length)
      (plays : q.running = running) (fresh : ∀ i ∈ rest, Fresh i) :
      Spread running 0 (.inr q :: rest) q.cursor (q.children ++ rest.flatMap leaves)
  | past {k j : ℕ} {i : α ⊕ Sequence α} {items : List (α ⊕ Sequence α)} {l : List α}
      (occupied : leaves i ≠ []) (spread : Spread running k items j l) :
      Spread running (k + 1) (i :: items) ((leaves i).length + j) (leaves i ++ l)

/-- Items that have not been reached stand at the first one. -/
theorem spread_of_fresh {items : List (α ⊕ Sequence α)} (h : ∀ i ∈ items, Fresh i) :
    Spread false 0 items 0 (items.flatMap leaves) := by
  cases items with
  | nil => exact .nil
  | cons i rest =>
      obtain ⟨hi, hrest⟩ := List.forall_mem_cons.mp h
      cases i with
      | inl a => exact .leaf hrest
      | inr q =>
          obtain ⟨hsome, hcursor, hrunning⟩ := hi
          have hwithin : q.cursor < q.length := hcursor ▸ List.length_pos_iff.mpr hsome
          have hspread : Spread false 0 (.inr q :: rest) q.cursor _ := .inner hwithin hrunning hrest
          rwa [hcursor] at hspread

theorem Spread.leaves_eq {running : Bool} {k j : ℕ} {items : List (α ⊕ Sequence α)} {l : List α}
    (h : Spread running k items j l) : l = items.flatMap leaves ∧ ∀ i ∈ items, leaves i ≠ [] := by
  have hrest : ∀ {rest : List (α ⊕ Sequence α)}, (∀ i ∈ rest, Fresh i) →
      ∀ i ∈ rest, leaves i ≠ [] := by
    intro rest hfresh i hi
    cases i with
    | inl a => exact List.cons_ne_nil a []
    | inr q => exact (hfresh _ hi).1
  induction h with
  | nil => exact ⟨rfl, nofun⟩
  | leaf fresh => exact ⟨rfl, List.forall_mem_cons.mpr ⟨List.cons_ne_nil _ _, hrest fresh⟩⟩
  | inner within _ fresh =>
      refine ⟨rfl, List.forall_mem_cons.mpr ⟨?_, hrest fresh⟩⟩
      exact List.ne_nil_of_length_pos (Nat.zero_lt_of_lt within)
  | past occupied _ ih =>
      obtain ⟨rfl, hsome⟩ := ih
      exact ⟨rfl, List.forall_mem_cons.mpr ⟨occupied, hsome⟩⟩

/-- A sequence that holds sequences, and one that holds their children in place of them, have
come equally far. -/
structure Regrouped (s : Sequence (α ⊕ Sequence α)) (s' : Sequence α) : Prop where
  spread : Spread s.running s.cursor s.children s'.cursor s'.children
  running : s.running = s'.running

theorem regrouped_ofList {items : List (α ⊕ List α)} (h : ∀ l, .inr l ∈ items → l ≠ []) :
    Regrouped (.ofList (items.map (Sum.map id .ofList))) (.ofList (inPlace items)) := by
  have hfresh : ∀ i ∈ items.map (Sum.map id ofList), Fresh i := by
    intro i hi
    obtain ⟨item, hitem, rfl⟩ := List.mem_map.mp hi
    cases item with
    | inl a => trivial
    | inr l => exact ⟨h l hitem, rfl, rfl⟩
  have hleaves : (items.map (Sum.map id ofList)).flatMap leaves = inPlace items := by
    rw [List.flatMap_map, inPlace]
    congr 1
    funext item
    cases item <;> rfl
  refine ⟨?_, rfl⟩
  have hspread := spread_of_fresh hfresh
  rwa [hleaves] at hspread

/-- An element behind others is visited as in the list without these. -/
theorem visitAt_length_add (f : α → W → α × W) (before l : List α) (j : ℕ) (w : W) :
    visitAt f (before.length + j) (before ++ l) w =
      (before ++ (visitAt f j l w).1, (visitAt f j l w).2) := by
  induction before with
  | nil => simp
  | cons a before ih =>
      rw [List.length_cons, Nat.add_right_comm, List.cons_append]
      simp only [visitAt, ih, List.cons_append]

/-- A call that reaches only the child at the cursor. -/
theorem Spread.visitAt {running : Bool} (running' : Bool) {f : α → W → α × W}
    {g : α ⊕ Sequence α → W → (α ⊕ Sequence α) × W}
    (hleaf : ∀ a w, g (.inl a) w = (.inl (f a w).1, (f a w).2))
    (hinner : ∀ q w, g (.inr q) w =
      (.inr ⟨(visitAt f q.cursor q.children w).1, q.cursor, running'⟩,
        (visitAt f q.cursor q.children w).2))
    {k j : ℕ} {items : List (α ⊕ Sequence α)} {l : List α} (h : Spread running k items j l)
    (w : W) :
    Spread running' k (Storyboard.visitAt g k items w).1 j (Storyboard.visitAt f j l w).1 ∧
      (Storyboard.visitAt g k items w).2 = (Storyboard.visitAt f j l w).2 := by
  induction h with
  | nil => exact ⟨.nil, rfl⟩
  | @leaf a rest fresh =>
      simp only [Storyboard.visitAt, hleaf]
      exact ⟨.leaf fresh, trivial⟩
  | @inner q rest within plays fresh =>
      rw [visitAt_append f (show q.cursor < q.children.length from within)]
      simp only [Storyboard.visitAt, hinner]
      have hwithin : q.cursor < (Storyboard.visitAt f q.cursor q.children w).1.length := by
        rw [length_visitAt]
        exact within
      exact ⟨.inner (q := ⟨_, q.cursor, running'⟩) hwithin rfl fresh, trivial⟩
  | @past k j i items l occupied _ ih =>
      rw [visitAt_length_add]
      exact ⟨.past occupied ih.1, ih.2⟩

/-! ### Ticks that do the same -/

/-- Two ticks did the same, one to items and the other to their leaves. Of these, some were over
before in the sequence that plays. -/
structure SameStep (step : SequenceTick (α ⊕ Sequence α) W) (before : List α)
    (step' : SequenceTick α W) : Prop where
  tick : step.tick = step'.tick
  world : step.world = step'.world
  spread : Spread (!step.tick.isFinished) step.passed step.children (before.length + step'.passed)
    (before ++ step'.children)

theorem SameStep.past {step : SequenceTick (α ⊕ Sequence α) W} {step' : SequenceTick α W}
    (h : SameStep step [] step') {i : α ⊕ Sequence α} {before l : List α}
    (hi : leaves i = before ++ l) (hl : l ≠ []) :
    SameStep { step with children := i :: step.children, passed := step.passed + 1 } before
      { step' with children := l ++ step'.children, passed := l.length + step'.passed } where
  tick := h.tick
  world := h.world
  spread := by
    have hspread := Spread.past (i := i) (by rw [hi]; simp [hl]) h.spread
    rw [hi] at hspread
    simpa [Nat.add_assoc] using hspread

variable [Animation α W]

/-! ### Resets -/

/-- A reset of all items takes them back to where they were not reached. -/
theorem visitAll_reset {items : List (α ⊕ Sequence α)} (h : ∀ i ∈ items, leaves i ≠ []) (w : W) :
    (∀ i ∈ (visitAll Animation.reset items w).1, Fresh i) ∧
      (visitAll Animation.reset items w).1.flatMap leaves =
        (visitAll Animation.reset (items.flatMap leaves) w).1 ∧
      (visitAll Animation.reset items w).2 =
        (visitAll Animation.reset (items.flatMap leaves) w).2 := by
  induction items generalizing w with
  | nil => exact ⟨nofun, rfl, rfl⟩
  | cons i items ih =>
      obtain ⟨hi, hitems⟩ := List.forall_mem_cons.mp h
      obtain ⟨hfresh, hleaves, hworld⟩ := ih hitems (Animation.reset i w).2
      have hitem : Fresh (Animation.reset i w).1 ∧
          visitAll Animation.reset (leaves i) w =
            (leaves (Animation.reset i w).1, (Animation.reset i w).2) := by
        cases i with
        | inl a => exact ⟨trivial, rfl⟩
        | inr q =>
            refine ⟨⟨List.ne_nil_of_length_pos ?_, rfl, rfl⟩, rfl⟩
            change 0 < (visitAll Animation.reset q.children w).1.length
            rw [length_visitAll]
            exact List.length_pos_iff.mpr hi
      rw [List.flatMap_cons, visitAll_append, hitem.2]
      simp only [visitAll, List.flatMap_cons, hleaves, hworld]
      exact ⟨List.forall_mem_cons.mpr ⟨hitem.1, hfresh⟩, trivial, trivial⟩

/-! ### Ticks -/

/-- The tick that is handed on when a child is over. -/
def handOn (leftover : Float32) : List α → W → SequenceTick α W
  | [], w => ⟨.finished leftover, [], 0, w⟩
  | next :: rest, w =>
      let (next, w) := Animation.start next w
      advance leftover next rest w

theorem advance_of_finished {dt leftover : Float32} {a : α} {rest : List α} {w : W}
    (h : (Animation.update dt a w).1 = .finished leftover) :
    advance dt a rest w =
      let step := handOn leftover rest (Animation.update dt a w).2.2
      { step with children := (Animation.update dt a w).2.1 :: step.children
                  passed := step.passed + 1 } := by
  cases rest with
  | nil => exact advance_nil h
  | cons next rest => exact advance_cons h

/-- Behind further children the tick is handed on when they are over. -/
theorem advance_append_of_finished {dt leftover : Float32} {a : α} {rest : List α} {w : W}
    (h : (advance dt a rest w).tick = .finished leftover) (later : List α) :
    advance dt a (rest ++ later) w =
      let step := advance dt a rest w
      let step' := handOn leftover later step.world
      ⟨step'.tick, step.children ++ step'.children, step.passed + step'.passed, step'.world⟩ := by
  induction rest generalizing dt a w with
  | nil =>
      cases hfinished : (Animation.update dt a w).1 with
      | finished l =>
          rw [advance_nil hfinished] at h ⊢
          cases h
          rw [List.nil_append, advance_of_finished hfinished]
          simp only [List.singleton_append, Nat.add_comm 1]
      | _ =>
          rw [advance_of_not_finished (by rw [hfinished]; rfl)] at h
          cases h
  | cons next rest ih =>
      cases hfinished : (Animation.update dt a w).1 with
      | finished l =>
          rw [advance_cons hfinished] at h ⊢
          rw [List.cons_append, advance_cons hfinished]
          dsimp only at h ⊢
          rw [ih h]
          simp only [List.cons_append, Nat.add_right_comm]
      | _ =>
          rw [advance_of_not_finished (by rw [hfinished]; rfl)] at h
          cases h

/-- A tick of a child and those behind it ends with all of them over, or with one of them still
at play. -/
theorem advance_ends (dt : Float32) (a : α) (rest : List α) (w : W) :
    let step := advance dt a rest w
    step.children.length = rest.length + 1 ∧
      ((∃ leftover, step.tick = .finished leftover ∧ step.passed = rest.length + 1) ∨
        (step.tick = .running ∧ step.passed < rest.length + 1)) := by
  have hrelay : Relay (fun _ _ => True) (fun _ (_ : α) => True) (fun _ _ (_ : W) => True)
      (fun _ _ => True) (fun _ _ _ _ => True) (fun _ _ _ => True) :=
    ⟨fun _ _ => ⟨trivial, trivial⟩, fun _ _ => trivial, fun _ _ => trivial, fun _ => trivial⟩
  obtain ⟨-, hlength, hends⟩ :=
    @Relay.advance _ _ _ _ _ _ _ _ _ hrelay 0 dt a rest w trivial
      (.ofForall (fun _ _ => trivial) 1 rest)
  refine ⟨hlength, hends.imp_left fun hended => ?_⟩
  obtain ⟨leftover, htick, hpassed, -⟩ := hended
  exact ⟨leftover, htick, hpassed⟩

section Advance

variable {rest : List (α ⊕ Sequence α)}

theorem sameStep_advance_leaf (hfresh : ∀ i ∈ rest, Fresh i)
    (hrest : ∀ leftover (w : W),
      SameStep (handOn leftover rest w) [] (handOn leftover (rest.flatMap leaves) w))
    (dt : Float32) (a : α) (w : W) :
    SameStep (advance dt (.inl a) rest w) [] (advance dt a (rest.flatMap leaves) w) := by
  cases hfinished : (Animation.update dt a w).1 with
  | finished leftover =>
      have hitem : (Animation.update dt (.inl a : α ⊕ Sequence α) w).1 = .finished leftover :=
        hfinished
      rw [advance_of_finished hfinished, advance_of_finished hitem]
      have hleaves : leaves (.inl (Animation.update dt a w).2.1 : α ⊕ Sequence α) =
          [] ++ [(Animation.update dt a w).2.1] := rfl
      have hpast := (hrest leftover (Animation.update dt a w).2.2).past hleaves
        (List.cons_ne_nil _ [])
      rwa [List.length_singleton, Nat.add_comm 1] at hpast
  | _ =>
      have hgo : (Animation.update dt a w).1.isFinished = false := by rw [hfinished]; rfl
      have hitem : (Animation.update dt (.inl a : α ⊕ Sequence α) w).1.isFinished = false := hgo
      rw [advance_of_not_finished hgo, advance_of_not_finished hitem]
      exact ⟨rfl, rfl, .leaf hfresh⟩

theorem sameStep_advance_inner (hfresh : ∀ i ∈ rest, Fresh i)
    (hrest : ∀ leftover (w : W),
      SameStep (handOn leftover rest w) [] (handOn leftover (rest.flatMap leaves) w))
    (dt : Float32) {q : Sequence α} (hrunning : q.running = true) {a : α} {more : List α}
    (hdrop : q.children.drop q.cursor = a :: more) (hwithin : q.cursor < q.length) (w : W) :
    SameStep (advance dt (.inr q) rest w) (q.children.take q.cursor)
      (advance dt a (more ++ rest.flatMap leaves) w) := by
  obtain ⟨hlength, hends⟩ := advance_ends dt a more w
  have hbefore : (q.children.take q.cursor).length = q.cursor :=
    List.length_take_of_le (Nat.le_of_lt hwithin)
  -- the sequence answers as its own tick ends
  have hupdate : q.update dt w = _ := update_of_drop hrunning hdrop
  have hitem : Animation.update dt (.inr q : α ⊕ Sequence α) w =
      (q.update dt w).map id (·.map .inr id) := rfl
  rcases hends with ⟨leftover, htick, hpassed⟩ | ⟨htick, hpassed⟩
  · have hfinished : (Animation.update dt (.inr q : α ⊕ Sequence α) w).1 = .finished leftover := by
      rw [hitem, hupdate]
      exact htick
    rw [advance_of_finished hfinished, advance_append_of_finished htick, hitem, hupdate]
    dsimp only
    rw [hpassed, ← hlength]
    refine (hrest leftover _).past (i := .inr ⟨_, _, _⟩) (l := (advance dt a more w).children)
      rfl ?_
    intro hnil
    rw [hnil] at hlength
    cases hlength
  · have hgo : (Animation.update dt (.inr q : α ⊕ Sequence α) w).1.isFinished = false := by
      rw [hitem, hupdate]
      exact congrArg Tick.isFinished htick
    rw [advance_of_not_finished hgo, hitem, hupdate,
      (advance_append dt a more (rest.flatMap leaves) w).1 (by rw [htick]; rfl)]
    refine ⟨htick.symm, rfl, ?_⟩
    rw [hbefore, ← List.append_assoc, htick]
    refine Spread.inner (q := ⟨_, _, _⟩) ?_ (by rw [htick]) hfresh
    change q.cursor + _ < (q.children.take q.cursor ++ _).length
    rw [List.length_append, hbefore, hlength]
    omega

/-- A tick that is handed on gets to the leaves. -/
theorem sameStep_handOn (hfresh : ∀ i ∈ rest, Fresh i) (leftover : Float32) (w : W) :
    SameStep (handOn leftover rest w) [] (handOn leftover (rest.flatMap leaves) w) := by
  induction rest generalizing leftover w with
  | nil => exact ⟨rfl, rfl, .nil⟩
  | cons i rest ih =>
      obtain ⟨hi, hrest⟩ := List.forall_mem_cons.mp hfresh
      cases i with
      | inl b => exact sameStep_advance_leaf hrest (ih hrest) leftover _ _
      | inr q =>
          obtain ⟨children, cursor, running⟩ := q
          obtain ⟨hsome, rfl, rfl⟩ := hi
          obtain ⟨b, more, rfl⟩ := List.exists_cons_of_ne_nil hsome
          exact sameStep_advance_inner (q := ⟨_ :: more, 0, true⟩) hrest (ih hrest) leftover rfl rfl
            (Nat.zero_lt_succ _) _

end Advance

/-- Either both cursors are at the end, or a tick of what is from there on does the same to
items and leaves. -/
theorem Spread.cases_tick {k j : ℕ} {items : List (α ⊕ Sequence α)} {l : List α}
    (h : Spread true k items j l) (dt : Float32) (w : W) :
    (items.drop k = [] ∧ l.drop j = [] ∧ ∀ running, Spread running k items j l) ∨
      ∃ i rest a more, items.drop k = i :: rest ∧ l.drop j = a :: more ∧
        let step := advance dt i rest w
        let step' := advance dt a more w
        step.tick = step'.tick ∧ step.world = step'.world ∧
          Spread (!step.tick.isFinished) (k + step.passed) (items.take k ++ step.children)
            (j + step'.passed) (l.take j ++ step'.children) := by
  induction h with
  | nil => exact .inl ⟨rfl, rfl, fun _ => .nil⟩
  | @leaf a rest fresh =>
      obtain ⟨htick, hworld, hspread⟩ :=
        sameStep_advance_leaf fresh (sameStep_handOn fresh) dt a w
      refine .inr ⟨_, _, _, _, rfl, rfl, htick, hworld, ?_⟩
      simpa using hspread
  | @inner q rest within plays fresh =>
      obtain ⟨a, more, hdrop⟩ := exists_drop_eq within
      have hcursor : q.cursor ≤ q.children.length := Nat.le_of_lt within
      obtain ⟨htick, hworld, hspread⟩ :=
        sameStep_advance_inner fresh (sameStep_handOn fresh) dt plays hdrop within w
      refine .inr ⟨_, _, _, _, rfl, ?_, htick, hworld, ?_⟩
      · rw [List.drop_append_of_le_length hcursor, hdrop, List.cons_append]
      · rw [List.take_append_of_le_length hcursor]
        rw [List.length_take_of_le hcursor] at hspread
        simpa using hspread
  | @past k j i items l occupied _ ih =>
      rcases ih with ⟨hitems, hl, hspread⟩ | ⟨i', rest, a, more, hitems, hl, htick, hworld, hspread⟩
      · refine .inl ⟨hitems, ?_, fun running => .past occupied (hspread running)⟩
        rw [List.drop_length_add_append, hl]
      · refine .inr ⟨i', rest, a, more, hitems, ?_, htick, hworld, ?_⟩
        · rw [List.drop_length_add_append, hl]
        · rw [List.take_length_add_append, List.append_assoc, Nat.add_assoc _ j,
            Nat.add_right_comm k]
          exact .past occupied hspread

theorem Regrouped.update {s : Sequence (α ⊕ Sequence α)} {s' : Sequence α} (h : Regrouped s s')
    (dt : Float32) (w : W) :
    (s.update dt w).1 = (s'.update dt w).1 ∧
      Paired Regrouped Eq (s.update dt w).2 (s'.update dt w).2 := by
  obtain ⟨items, k, running⟩ := s
  obtain ⟨l, j, _⟩ := s'
  obtain ⟨hspread, rfl⟩ := h
  unfold Sequence.update
  cases running with
  | false => exact ⟨rfl, ⟨hspread, rfl⟩, rfl⟩
  | true =>
      rcases hspread.cases_tick dt w with
        ⟨hitems, hl, hended⟩ | ⟨i, rest, a, more, hitems, hl, htick, hworld, hstep⟩
      · simp only [hitems, hl, if_true]
        exact ⟨trivial, ⟨hended false, rfl⟩, rfl⟩
      · simp only [hitems, hl, if_true]
        exact ⟨htick, ⟨hstep, congrArg (fun tick => !tick.isFinished) htick⟩, hworld⟩

/-- Whatever is called, the children may stand in place of the sequence. -/
theorem lockstep_regrouped :
    Lockstep (Regrouped : Sequence (α ⊕ Sequence α) → Sequence α → Prop) (@Eq W) where
  start := by
    rintro s s' w _ ⟨hspread, hrunning⟩ rfl
    obtain ⟨hspread', hworld⟩ := Spread.visitAt true (g := Animation.start)
      (fun (a : α) (w : W) => rfl) (fun _ _ => rfl) hspread w
    exact ⟨⟨hspread', rfl⟩, hworld⟩
  update := by
    rintro s s' w _ dt h rfl
    exact h.update dt w
  stop := by
    rintro s s' w _ ⟨hspread, hrunning⟩ rfl
    obtain ⟨hspread', hworld⟩ := Spread.visitAt false (g := Animation.stop)
      (fun (a : α) (w : W) => rfl) (fun _ _ => rfl) hspread w
    exact ⟨⟨hspread', rfl⟩, hworld⟩
  reset := by
    rintro s s' w _ ⟨hspread, hrunning⟩ rfl
    obtain ⟨hchildren, hsome⟩ := hspread.leaves_eq
    obtain ⟨hfresh, hleaves, hworld⟩ := visitAll_reset hsome w
    refine ⟨⟨?_, rfl⟩, ?_⟩
    · change Spread false 0 _ 0 (visitAll Animation.reset s'.children w).1
      rw [hchildren, ← hleaves]
      exact spread_of_fresh hfresh
    · change _ = (visitAll Animation.reset s'.children w).2
      rw [hchildren]
      exact hworld

end Sequence

/-! ## Parallel animations in a parallel animation -/

namespace Parallel

/-- The lanes that stand in the place of a lane. -/
def leaves : Lane (α ⊕ Parallel α) → List (Lane α)
  | ⟨.inl a, finished⟩ => [⟨a, finished⟩]
  | ⟨.inr p, _⟩ => p.lanes

/-- A parallel animation in a lane that is over has no lane that is not. Else it plays if the
whole does. -/
def Fits (running : Bool) : Lane (α ⊕ Parallel α) → Prop
  | ⟨.inl _, _⟩ => True
  | ⟨.inr p, true⟩ => ∀ lane ∈ p.lanes, lane.finished = true
  | ⟨.inr p, false⟩ => p.running = running

/-- A parallel animation that holds parallel animations, and one that holds their children in
place of them, have come equally far. -/
structure Regrouped (p : Parallel (α ⊕ Parallel α)) (p' : Parallel α) : Prop where
  lanes : p'.lanes = p.lanes.flatMap leaves
  fits : ∀ lane ∈ p.lanes, Fits p.running lane
  running : p.running = p'.running

theorem regrouped_ofList (items : List (α ⊕ List α)) :
    Regrouped (.ofList (items.map (Sum.map id .ofList))) (.ofList (inPlace items)) where
  lanes := by
    simp only [ofList, inPlace, List.map_flatMap, List.map_map, List.flatMap_map]
    congr 1
    funext item
    cases item <;> rfl
  fits := by
    intro lane hlane
    simp only [ofList, List.map_map, List.mem_map] at hlane
    obtain ⟨item, -, rfl⟩ := hlane
    cases item with
    | inl a => trivial
    | inr l => rfl
  running := rfl

/-- A call that is passed on to every lane. -/
theorem visitAll_leaves {running running' : Bool} {f : Lane α → W → Lane α × W}
    {g : Lane (α ⊕ Parallel α) → W → Lane (α ⊕ Parallel α) × W}
    (h : ∀ lane w, Fits running lane →
      visitAll f (leaves lane) w = (leaves (g lane w).1, (g lane w).2) ∧ Fits running' (g lane w).1)
    {lanes : List (Lane (α ⊕ Parallel α))} (hlanes : ∀ lane ∈ lanes, Fits running lane) (w : W) :
    visitAll f (lanes.flatMap leaves) w =
        ((visitAll g lanes w).1.flatMap leaves, (visitAll g lanes w).2) ∧
      ∀ lane ∈ (visitAll g lanes w).1, Fits running' lane := by
  induction lanes generalizing w with
  | nil => exact ⟨rfl, nofun⟩
  | cons lane lanes ih =>
      obtain ⟨hlane, hlanes⟩ := List.forall_mem_cons.mp hlanes
      obtain ⟨hvisit, hfits⟩ := h lane w hlane
      obtain ⟨hvisits, hrest⟩ := ih hlanes (g lane w).2
      rw [List.flatMap_cons, visitAll_append, hvisit]
      simp only [visitAll, hvisits, List.flatMap_cons]
      exact ⟨trivial, List.forall_mem_cons.mpr ⟨hfits, hrest⟩⟩

/-- A tick did the same to some lanes and to those that stand in their place. If all are over,
what was left over before and in the end is the same number in both. -/
structure SameTick (dt leftover leftover' : Float32) (tick : LanesTick (α ⊕ Parallel α) W)
    (tick' : LanesTick α W) : Prop where
  lanes : tick'.lanes = tick.lanes.flatMap leaves
  world : tick'.world = tick.world
  fits : ∀ lane ∈ tick.lanes, Fits true lane
  ended : tick.lanes.all (·.finished) = tick'.lanes.all (·.finished)
  number : tick.lanes.all (·.finished) = true → height leftover = height leftover' →
    height leftover ≤ height dt →
      height tick.leftover = height tick'.leftover ∧ height tick.leftover ≤ height dt

theorem SameTick.append {dt leftover leftover' : Float32}
    {tick later : LanesTick (α ⊕ Parallel α) W} {tick' later' : LanesTick α W}
    (h : SameTick dt leftover leftover' tick tick')
    (hlater : SameTick dt tick.leftover tick'.leftover later later') :
    SameTick dt leftover leftover' { later with lanes := tick.lanes ++ later.lanes }
      { later' with lanes := tick'.lanes ++ later'.lanes } where
  lanes := by
    dsimp only
    rw [h.lanes, hlater.lanes, List.flatMap_append]
  world := hlater.world
  fits lane hlane := (List.mem_append.mp hlane).elim (h.fits lane) (hlater.fits lane)
  ended := by
    dsimp only
    rw [List.all_append, List.all_append, h.ended, hlater.ended]
  number hall hsame hle := by
    rw [List.all_append, Bool.and_eq_true] at hall
    obtain ⟨hsame', hle'⟩ := h.number hall.1 hsame hle
    exact hlater.number hall.2 hsame' hle'

/-- What the lanes of a parallel animation leave over may be counted at once, or after what is
left over by these. -/
theorem height_foldl_within {dt leftover : Float32} (h : height leftover ≤ height dt)
    (leftovers : List Float32) :
    height (minNumber leftover (leftovers.foldl minNumber dt)) =
      height (leftovers.foldl minNumber leftover) := by
  rw [height_minNumber, height_foldl_minNumber, height_foldl_minNumber,
    ← @List.foldl_assoc _ min, min_eq_left h]

variable [Animation α W]

theorem visitAll_startLane_leaves {running : Bool} (lane : Lane (α ⊕ Parallel α)) (w : W)
    (h : Fits running lane) :
    visitAll startLane (leaves lane) w =
        (leaves (startLane lane w).1, (startLane lane w).2) ∧
      Fits true (startLane lane w).1 := by
  obtain ⟨a | p, _ | _⟩ := lane
  · exact ⟨rfl, trivial⟩
  · exact ⟨rfl, trivial⟩
  · exact ⟨rfl, rfl⟩
  · have hover : List.Forall₂ (fun _ (lane : Lane α) => lane.finished = true) p.lanes p.lanes :=
      List.forall₂_same.mpr h
    exact ⟨visitAll_eq_self hover (fun _ _ w hlane => if_pos hlane) w, h⟩

theorem visitAll_stopLane_leaves {running : Bool} (lane : Lane (α ⊕ Parallel α)) (w : W)
    (h : Fits running lane) :
    visitAll stopLane (leaves lane) w = (leaves (stopLane lane w).1, (stopLane lane w).2) ∧
      Fits false (stopLane lane w).1 := by
  obtain ⟨a | p, _ | _⟩ := lane
  · exact ⟨rfl, trivial⟩
  · exact ⟨rfl, trivial⟩
  · exact ⟨rfl, rfl⟩
  · have hover : List.Forall₂ (fun _ (lane : Lane α) => lane.finished = true) p.lanes p.lanes :=
      List.forall₂_same.mpr h
    have hstopped := forall₂_visitAll (S := fun _ (lane : Lane α) => lane.finished = true) hover
      (fun _ lane w (hlane : lane.finished = true) => show (stopLane lane w).1.finished = true
        from hlane) w
    refine ⟨rfl, fun lane hlane => ?_⟩
    obtain ⟨_, -, hfinished⟩ := exists_of_mem_forall₂ hstopped.flip hlane
    exact hfinished

theorem visitAll_resetLane_leaves {running : Bool} (lane : Lane (α ⊕ Parallel α)) (w : W)
    (_ : Fits running lane) :
    visitAll resetLane (leaves lane) w = (leaves (resetLane lane w).1, (resetLane lane w).2) ∧
      Fits false (resetLane lane w).1 := by
  obtain ⟨a | p, finished⟩ := lane
  · exact ⟨rfl, trivial⟩
  · exact ⟨rfl, rfl⟩

/-! ### Ticks -/

theorem updateLanes_append (dt leftover : Float32) (l l' : List (Lane α)) (w : W) :
    updateLanes dt leftover (l ++ l') w =
      let tick := updateLanes dt leftover l w
      let tick' := updateLanes dt tick.leftover l' tick.world
      { tick' with lanes := tick.lanes ++ tick'.lanes } := by
  induction l generalizing leftover w with
  | nil => rfl
  | cons lane l ih =>
      by_cases hfinished : lane.finished = true
      · rw [List.cons_append, updateLanes_of_flagged hfinished, updateLanes_of_flagged hfinished,
          ih]
        rfl
      · rw [List.cons_append, updateLanes_of_not_flagged hfinished,
          updateLanes_of_not_flagged hfinished]
        dsimp only
        rw [ih]
        rfl

/-- What is left over before has a part in what is left over in the end, and in nothing else. -/
theorem exists_updateLanes (dt : Float32) (l : List (Lane α)) (w : W) :
    ∃ (leftovers : List Float32) (lanes : List (Lane α)) (world : W), ∀ leftover,
      updateLanes dt leftover l w = ⟨leftovers.foldl minNumber leftover, lanes, world⟩ := by
  induction l generalizing w with
  | nil => exact ⟨[], [], w, fun _ => rfl⟩
  | cons lane l ih =>
      by_cases hfinished : lane.finished = true
      · obtain ⟨leftovers, lanes, world, htail⟩ := ih w
        refine ⟨leftovers, lane :: lanes, world, fun leftover => ?_⟩
        rw [updateLanes_of_flagged hfinished, htail]
      · obtain ⟨leftovers, lanes, world, htail⟩ := ih (Animation.update dt lane.child w).2.2
        refine ⟨(Animation.update dt lane.child w).1.leftover?.toList ++ leftovers,
          ⟨(Animation.update dt lane.child w).2.1,
            (Animation.update dt lane.child w).1.leftover?.isSome⟩ :: lanes, world,
          fun leftover => ?_⟩
        rw [updateLanes_of_not_flagged hfinished]
        dsimp only
        rw [htail, List.foldl_append]
        cases (Animation.update dt lane.child w).1.leftover? <;> rfl

theorem updateLanes_of_all_finished {l : List (Lane α)} (h : ∀ lane ∈ l, lane.finished = true)
    (dt leftover : Float32) (w : W) : updateLanes dt leftover l w = ⟨leftover, l, w⟩ := by
  induction l with
  | nil => rfl
  | cons lane l ih =>
      obtain ⟨hlane, hl⟩ := List.forall_mem_cons.mp h
      rw [updateLanes_of_flagged hlane, ih hl]

theorem sameTick_lane (dt leftover leftover' : Float32) (lane : Lane (α ⊕ Parallel α)) (w : W)
    (h : Fits true lane) :
    SameTick dt leftover leftover' (updateLanes dt leftover [lane] w)
      (updateLanes dt leftover' (leaves lane) w) := by
  obtain ⟨a | p, _ | _⟩ := lane
  · have hitem : Animation.update dt (.inl a : α ⊕ Parallel α) w =
        (Animation.update dt a w).map id (·.map .inl id) := rfl
    rw [leaves, updateLanes_of_not_flagged (by nofun), updateLanes_of_not_flagged (by nofun), hitem]
    generalize Animation.update dt a w = result
    obtain ⟨tick, a', w'⟩ := result
    refine ⟨rfl, rfl, fun lane hlane => ?_, rfl, fun _ hsame hle => ?_⟩
    · rw [List.mem_singleton.mp hlane]
      trivial
    · change height (tick.leftover?.elim leftover (minNumber leftover)) =
          height (tick.leftover?.elim leftover' (minNumber leftover')) ∧
        height (tick.leftover?.elim leftover (minNumber leftover)) ≤ _
      cases tick.leftover? with
      | none => exact ⟨hsame, hle⟩
      | some left =>
          simp only [Option.elim, height_minNumber, ← hsame]
          exact ⟨trivial, (min_le_left _ _).trans hle⟩
  · exact ⟨rfl, rfl, fun lane hlane => by rwa [List.mem_singleton.mp hlane], rfl,
      fun _ hsame hle => ⟨hsame, hle⟩⟩
  · obtain ⟨leftovers, lanes, world, htick⟩ := exists_updateLanes dt p.lanes w
    have hupdate : Animation.update dt (.inr p : α ⊕ Parallel α) w =
        (Animation.update dt p w).map id (·.map .inr id) := rfl
    rw [leaves, updateLanes_of_not_flagged (by nofun), hupdate, update_of_running h, htick, htick]
    dsimp only
    split
    · next hall =>
      refine ⟨(List.append_nil _).symm, rfl, fun lane hlane => ?_, hall.symm, fun _ hsame hle => ?_⟩
      · rw [List.mem_singleton.mp hlane]
        exact List.all_eq_true.mp hall
      · change height (minNumber leftover (leftovers.foldl minNumber dt)) = _ ∧
          height (minNumber leftover (leftovers.foldl minNumber dt)) ≤ _
        refine ⟨?_, ?_⟩
        · rw [height_foldl_within hle, height_foldl_minNumber, height_foldl_minNumber, hsame]
        · rw [height_minNumber]
          exact (min_le_left _ _).trans hle
    · next hgoing =>
      refine ⟨(List.append_nil _).symm, rfl, fun lane hlane => ?_, ?_, fun hover => ?_⟩
      · rw [List.mem_singleton.mp hlane]
        rfl
      · exact (Bool.eq_false_iff.mpr hgoing).symm
      · cases hover
  · have hsame := updateLanes_of_all_finished h dt leftover' w
    have hall : p.lanes.all (·.finished) = true := List.all_eq_true.mpr h
    rw [leaves, hsame]
    refine ⟨(List.append_nil _).symm, rfl, fun lane hlane => ?_, hall.symm,
      fun _ hsame hle => ⟨hsame, hle⟩⟩
    rwa [List.mem_singleton.mp hlane]

/-- A tick does the same to all lanes and to those that stand in their place. -/
theorem sameTick_updateLanes (dt : Float32) {lanes : List (Lane (α ⊕ Parallel α))}
    (h : ∀ lane ∈ lanes, Fits true lane) (leftover leftover' : Float32) (w : W) :
    SameTick dt leftover leftover' (updateLanes dt leftover lanes w)
      (updateLanes dt leftover' (lanes.flatMap leaves) w) := by
  induction lanes generalizing leftover leftover' w with
  | nil => exact ⟨rfl, rfl, nofun, rfl, fun _ hsame hle => ⟨hsame, hle⟩⟩
  | cons lane lanes ih =>
      obtain ⟨hlane, hlanes⟩ := List.forall_mem_cons.mp h
      have hhead := sameTick_lane dt leftover leftover' lane w hlane
      have htail := ih hlanes (updateLanes dt leftover [lane] w).leftover
        (updateLanes dt leftover' (leaves lane) w).leftover
        (updateLanes dt leftover [lane] w).world
      rw [← List.singleton_append, updateLanes_append, List.singleton_append, List.flatMap_cons,
        updateLanes_append]
      dsimp only
      rw [hhead.world]
      exact hhead.append htail

theorem Regrouped.update {p : Parallel (α ⊕ Parallel α)} {p' : Parallel α} (h : Regrouped p p')
    (dt : Float32) (w : W) :
    (p.update dt w).1.Same (p'.update dt w).1 ∧
      Paired Regrouped Eq (p.update dt w).2 (p'.update dt w).2 := by
  obtain ⟨lanes, running⟩ := p
  obtain ⟨_, _⟩ := p'
  obtain ⟨rfl, hfits, rfl⟩ := h
  unfold Parallel.update
  cases running with
  | false => exact ⟨.idle, ⟨rfl, hfits, rfl⟩, rfl⟩
  | true =>
      obtain ⟨hlanes, hworld, hfits', hover, hnumber⟩ := sameTick_updateLanes dt hfits dt dt w
      simp only [if_true]
      rw [← hover]
      split
      · next hall =>
        refine ⟨.finished (sameNumber_iff.mpr (hnumber hall rfl le_rfl).1),
          ⟨hlanes, fun lane hlane => ?_, rfl⟩, hworld.symm⟩
        have hfinished := List.all_eq_true.mp hall lane hlane
        have hlane' := hfits' lane hlane
        obtain ⟨a | q, _ | _⟩ := lane
        · trivial
        · trivial
        · cases hfinished
        · exact hlane'
      · exact ⟨.running, ⟨hlanes, hfits', rfl⟩, hworld.symm⟩

/-- Whatever is called, the children may stand in place of the parallel animation. -/
theorem inStep_regrouped :
    InStep (Regrouped : Parallel (α ⊕ Parallel α) → Parallel α → Prop) (@Eq W) := by
  rintro (_ | dt | _ | _) p ⟨lanes, running⟩ w _ ⟨rfl, hfits, rfl⟩ rfl
  · obtain ⟨hvisit, hfits'⟩ := visitAll_leaves (W := W) visitAll_startLane_leaves hfits w
    refine ⟨.none, ?_⟩
    change Paired _ _ (p.start w) (Parallel.start ⟨_, _⟩ w)
    unfold Parallel.start
    rw [hvisit]
    exact ⟨⟨rfl, hfits', rfl⟩, rfl⟩
  · have hregrouped : Regrouped p ⟨p.lanes.flatMap leaves, p.running⟩ := ⟨rfl, hfits, rfl⟩
    obtain ⟨htick, hpaired⟩ := hregrouped.update dt w
    exact ⟨.some htick, hpaired⟩
  · obtain ⟨hvisit, hfits'⟩ := visitAll_leaves (W := W) visitAll_stopLane_leaves hfits w
    refine ⟨.none, ?_⟩
    rw [Animation.perform, Animation.perform, stop_eq, stop_eq, hvisit]
    exact ⟨⟨rfl, hfits', rfl⟩, rfl⟩
  · obtain ⟨hvisit, hfits'⟩ := visitAll_leaves (W := W) visitAll_resetLane_leaves hfits w
    refine ⟨.none, ?_⟩
    rw [Animation.perform, Animation.perform, reset_eq, reset_eq, hvisit]
    exact ⟨⟨rfl, hfits', rfl⟩, rfl⟩

end Parallel

/-! ## Both -/

/-- Groups of children may be replaced by the children in place. Whatever the children are and
whatever is called, they receive the same calls in the same order, do the same to the world, and
the answers are the same: those of a sequence, if no group in it is empty, and those of a parallel
animation up to the sign of a zero left over. -/
theorem children_in_place {ι : Type} [Animation α W]
    (items : List (Recorded ι α ⊕ List (Recorded ι α))) (calls : List Call) (w : W × Record ι) :
    ((∀ group, .inr group ∈ items → group ≠ []) →
      let grouped := Sequence.ofList (items.map (Sum.map id Sequence.ofList))
      let plain := Sequence.ofList (inPlace items)
      (Animation.run calls grouped w).1 = (Animation.run calls plain w).1 ∧
        (Animation.run calls grouped w).2.2 = (Animation.run calls plain w).2.2) ∧
      let grouped := Parallel.ofList (items.map (Sum.map id Parallel.ofList))
      let plain := Parallel.ofList (inPlace items)
      List.Forall₂ (Option.Rel Tick.Same) (Animation.run calls grouped w).1
          (Animation.run calls plain w).1 ∧
        (Animation.run calls grouped w).2.2 = (Animation.run calls plain w).2.2 := by
  constructor
  · intro hgroups
    obtain ⟨hanswers, -, hworld⟩ :=
      Sequence.lockstep_regrouped.run calls (Sequence.regrouped_ofList hgroups) (rfl : w = w)
    exact ⟨hanswers, hworld⟩
  · obtain ⟨hanswers, -, hworld⟩ :=
      Parallel.inStep_regrouped.run calls (Parallel.regrouped_ofList items) (rfl : w = w)
    exact ⟨hanswers, hworld⟩

/-- A wait and a group of two. The first tick ends within the group, and a halt and the end of
all of them come later. -/
theorem children_in_place_waits :
    let wait (label : ℕ) : Recorded ℕ Wait := ⟨label, { duration := ofCount 100 }⟩
    let items := [.inl (wait 0), .inr [wait 1, wait 2]]
    let calls : List Call := [.start, .update (ofCount 150), .stop, .start, .update (ofCount 150)]
    let grouped := Sequence.ofList (items.map (Sum.map id Sequence.ofList))
    let plain := Sequence.ofList (inPlace items)
    let w : Unit × Record ℕ := ((), #[])
    (∀ group, .inr group ∈ items → group ≠ []) ∧
      (Animation.run calls grouped w).1 = (Animation.run calls plain w).1 ∧
      (Animation.run calls grouped w).2.2 = (Animation.run calls plain w).2.2 ∧
      (Animation.run calls plain w).2.2.2.map (·.1) = #[0, 0, 1, 1, 1, 1, 1, 2, 2] ∧
      (Animation.run calls grouped w).1.map (·.map Tick.isFinished) =
        [none, some false, none, none, some true] := by
  intro wait items calls grouped plain w
  have hgroups : ∀ group, .inr group ∈ items → group ≠ [] := by
    rintro group hgroup rfl
    simp [items] at hgroup
  obtain ⟨hanswers, hworld⟩ := (children_in_place items calls w).1 hgroups
  exact ⟨hgroups, hanswers, hworld, by decide +kernel, by decide +kernel⟩

end Storyboard
