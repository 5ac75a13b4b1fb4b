import Storyboard.Animation.Wait
import Storyboard.Proofs.Compile.Recurrence
import Storyboard.Proofs.Playback.Events

/-! # Taking turns

The children of a sequence take turns, whatever they are and whatever is called. Nothing but a
reset reaches a child before the one in front of it is over, or after it is over itself. The
next child is started as soon as a child is over, and is given exactly the time that was left.
-/

namespace Storyboard

variable {α W : Type}

/-- By the log, the first `k` children are over, and no others are. -/
def FirstOver (log : List (Event α W)) (k : ℕ) : Prop :=
  ∀ i, Over log i ↔ i < k

namespace FirstOver

variable {log : List (Event α W)} {e : Event α W} {k : ℕ} {leftover : Float32}

theorem nil : FirstOver ([] : List (Event α W)) 0 :=
  fun i => iff_of_false (not_over_nil i) (Nat.not_lt_zero i)

/-- The next child is over. -/
theorem finished (h : FirstOver log k) (hchild : e.child = k) (hcall : e.call ≠ .reset)
    (hanswer : e.answer = some (.finished leftover)) : FirstOver (log ++ [e]) (k + 1) := by
  have hsome : e.leftover?.isSome := by
    rw [Event.leftover?_eq_some_iff.mpr hanswer]
    rfl
  intro i
  rw [over_concat, h i]
  constructor
  · rintro (⟨hi, -⟩ | ⟨hi, -⟩)
    · omega
    · omega
  · intro hi
    rcases Nat.lt_succ_iff_lt_or_eq.mp hi with hlt | rfl
    · exact .inr ⟨hlt, fun hclears => hcall hclears.2⟩
    · exact .inl ⟨hchild, hsome⟩

/-- No child is over by this event, and none is reset. -/
theorem other (h : FirstOver log k) (hcall : e.call ≠ .reset) (hnone : e.leftover? = none) :
    FirstOver (log ++ [e]) k := by
  intro i
  rw [over_concat, h i]
  constructor
  · rintro (⟨-, hsome⟩ | ⟨hi, -⟩)
    · rw [hnone] at hsome
      cases hsome
    · exact hi
  · exact fun hi => .inr ⟨hi, fun hclears => hcall hclears.2⟩

end FirstOver

/-- What reaches the children of a list from index `i` on in a tick of so many milliseconds, if the
first of them has become `a`; and the answer to the tick, and how many of them are over by then. -/
inductive Relayed [Animation α W] (l : List α) :
    ℕ → Float32 → α → W → List (Event α W) → Tick → ℕ → Prop
  | stays {i : ℕ} {dt : Float32} {a : α} {w : W} :
      i < l.length → (Animation.update dt a w).1.isFinished = false →
      Relayed l i dt a w [Observed.event (.update dt) ⟨i, a⟩ w] .running 0
  | ends {i : ℕ} {dt leftover : Float32} {a : α} {w : W} :
      i + 1 = l.length → (Animation.update dt a w).1 = .finished leftover →
      Relayed l i dt a w [Observed.event (.update dt) ⟨i, a⟩ w] (.finished leftover) 1
  | passes {i passed : ℕ} {dt leftover : Float32} {a next : α} {w w' : W}
      {events : List (Event α W)} {tick : Tick} :
      (Animation.update dt a w).1 = .finished leftover → (Animation.update dt a w).2.2 = w' →
      l[i + 1]? = some next →
      Relayed l (i + 1) leftover (Animation.start next w').1 (Animation.start next w').2 events tick
        passed →
      Relayed l i dt a w
        (Observed.event (.update dt) ⟨i, a⟩ w :: Observed.event .start ⟨i + 1, next⟩ w' :: events)
        tick (passed + 1)

/-- What reaches the children is called in turn. -/
structure InTurn (n : ℕ) (log events : List (Event α W)) : Prop where
  /-- All but a reset reaches the first child that is not over. -/
  front : ∀ {before after : List (Event α W)} {e : Event α W}, events = before ++ e :: after →
    e.call ≠ .reset → FirstOver (log ++ before) e.child
  /-- When a child is over the next one is started at once, and is then given what is left. -/
  handOver : ∀ {before after : List (Event α W)} {e : Event α W} {leftover : Float32},
    events = before ++ e :: after → e.answer = some (.finished leftover) → e.child + 1 < n →
    ∃ e₁ e₂ rest, after = e₁ :: e₂ :: rest ∧ (e₁.child = e.child + 1 ∧ e₁.call = .start) ∧
      e₂.child = e.child + 1 ∧ e₂.call = .update leftover

namespace InTurn

variable {n : ℕ} {log : List (Event α W)}

theorem nil : InTurn n log [] where
  front h _ := absurd h.symm (List.append_ne_nil_of_right_ne_nil _ (List.cons_ne_nil _ _))
  handOver h _ _ := absurd h.symm (List.append_ne_nil_of_right_ne_nil _ (List.cons_ne_nil _ _))

/-- An event is put in front. -/
theorem cons {e : Event α W} {events : List (Event α W)}
    (hfront : e.call ≠ .reset → FirstOver log e.child)
    (hhandOver : ∀ {leftover : Float32}, e.answer = some (.finished leftover) → e.child + 1 < n →
      ∃ e₁ e₂ rest, events = e₁ :: e₂ :: rest ∧ (e₁.child = e.child + 1 ∧ e₁.call = .start) ∧
        e₂.child = e.child + 1 ∧ e₂.call = .update leftover)
    (h : InTurn n (log ++ [e]) events) : InTurn n log (e :: events) where
  front := by
    rintro before after e' hsplit hcall
    cases before with
    | nil =>
        obtain ⟨rfl, rfl⟩ := List.cons.inj hsplit
        rw [List.append_nil]
        exact hfront hcall
    | cons b before =>
        rw [List.cons_append] at hsplit
        obtain ⟨rfl, hrest⟩ := List.cons.inj hsplit
        rw [List.append_cons]
        exact h.front hrest hcall
  handOver := by
    rintro before after e' leftover hsplit hanswer hlt
    cases before with
    | nil =>
        obtain ⟨rfl, rfl⟩ := List.cons.inj hsplit
        exact hhandOver hanswer hlt
    | cons b before =>
        rw [List.cons_append] at hsplit
        obtain ⟨rfl, hrest⟩ := List.cons.inj hsplit
        exact h.handOver hrest hanswer hlt

/-- One event at the first child that is not over, by which no child is over. -/
theorem single {e : Event α W} (hfront : FirstOver log e.child) (hnone : e.leftover? = none) :
    InTurn n log [e] := by
  refine .cons (fun _ => hfront) (fun hfinished _ => ?_) .nil
  rw [Event.leftover?_eq_some_iff.mpr hfinished] at hnone
  cases hnone

/-- A reset may reach any children. -/
theorem ofReset [Animation α W] {events : List (Event α W)} {who : ℕ → Prop}
    (h : EachOnce events .reset who) : InTurn n log events where
  front {before after e} hsplit hcall := by
    have he : e ∈ events := by rw [hsplit]; simp
    exact absurd (h.call e he) hcall
  handOver {before after e _} hsplit hfinished _ := by
    have he : e ∈ events := by rw [hsplit]; simp
    have hnone := h.leftover?_eq_none nofun he
    rw [Event.leftover?_eq_some_iff.mpr hfinished] at hnone
    cases hnone

/-- More events follow. -/
theorem append {events later : List (Event α W)} (h : InTurn n log events)
    (h' : InTurn n (log ++ events) later) : InTurn n log (events ++ later) where
  front := by
    rintro before after e hsplit hcall
    rcases List.append_eq_append_iff.mp hsplit with ⟨middle, rfl, hlater⟩ | ⟨middle, rfl, hmiddle⟩
    · rw [← List.append_assoc]
      exact h'.front hlater hcall
    · rcases List.cons_eq_append_iff.mp hmiddle with ⟨rfl, hlater⟩ | ⟨middle, rfl, rfl⟩
      · have hfront := @h'.front [] _ _ hlater hcall
        rwa [List.append_nil, List.append_nil] at hfront
      · exact h.front rfl hcall
  handOver := by
    rintro before after e leftover hsplit hanswer hlt
    rcases List.append_eq_append_iff.mp hsplit with ⟨middle, rfl, hlater⟩ | ⟨middle, rfl, hmiddle⟩
    · exact h'.handOver hlater hanswer hlt
    · rcases List.cons_eq_append_iff.mp hmiddle with ⟨rfl, hlater⟩ | ⟨middle, rfl, rfl⟩
      · exact @h'.handOver [] _ _ _ hlater hanswer hlt
      · obtain ⟨e₁, e₂, rest, rfl, hnext⟩ := h.handOver rfl hanswer hlt
        exact ⟨e₁, e₂, rest ++ later, rfl, hnext⟩

end InTurn

namespace Relayed

variable [Animation α W] {l : List α} {i passed : ℕ} {dt : Float32} {a : α} {w : W}
  {log events : List (Event α W)} {tick : Tick}

/-- The first event is the tick. -/
theorem exists_cons (h : Relayed l i dt a w events tick passed) :
    ∃ rest, events = Observed.event (.update dt) ⟨i, a⟩ w :: rest := by
  cases h with
  | stays _ _ => exact ⟨_, rfl⟩
  | ends _ _ => exact ⟨_, rfl⟩
  | passes _ _ _ _ => exact ⟨_, rfl⟩

theorem inTurn (h : Relayed l i dt a w events tick passed) (hlog : FirstOver log i) :
    InTurn l.length log events ∧ FirstOver (log ++ events) (i + passed) := by
  induction h generalizing log with
  | @stays i dt a w _ hgo =>
      have hnone : (Observed.event (.update dt) ⟨i, a⟩ w).leftover? = none :=
        Event.leftover?_of_not_finished rfl hgo
      exact ⟨.single hlog hnone, hlog.other nofun hnone⟩
  | @ends i dt leftover a w hend hfinished =>
      have hlast : i + 1 < l.length → False := by omega
      exact ⟨.cons (fun _ => hlog) (fun _ hlt => (hlast hlt).elim) .nil,
        hlog.finished rfl Call.noConfusion (congrArg some hfinished)⟩
  | @passes i passed dt leftover a next w w' events tick hfinished hw hnext hrest ih =>
      have hnone : (Observed.event .start ⟨i + 1, next⟩ w').leftover? = none :=
        Observed.leftover?_event .start nofun _ _
      have hlog' : FirstOver (log ++ [Observed.event (.update dt) ⟨i, a⟩ w]) (i + 1) :=
        hlog.finished rfl Call.noConfusion (congrArg some hfinished)
      obtain ⟨hinTurn, hover⟩ := ih (hlog'.other Call.noConfusion hnone)
      obtain ⟨rest, rfl⟩ := hrest.exists_cons
      refine ⟨.cons (fun _ => hlog) (fun hanswer _ => ?_)
        (.cons (fun _ => hlog') (fun hanswer _ => ?_) hinTurn), ?_⟩
      · obtain rfl := Tick.finished.inj (hfinished.symm.trans (Option.some.inj hanswer))
        exact ⟨_, _, rest, rfl, ⟨rfl, rfl⟩, rfl, rfl⟩
      · rw [Event.leftover?_eq_some_iff.mpr hanswer] at hnone
        cases hnone
      · rw [List.append_cons, List.append_cons, Nat.add_comm passed, ← Nat.add_assoc]
        exact hover

/-- The tick is over when all children are, with what the last of them has left over. -/
theorem answer (h : Relayed l i dt a w events tick passed) :
    (i + passed = l.length ∧ ∃ leftover, (leftovers events).getLast? = some leftover ∧
      tick = .finished leftover) ∨ (i + passed < l.length ∧ tick = .running) := by
  induction h with
  | stays hlt _ => exact .inr ⟨hlt, rfl⟩
  | @ends i dt leftover a w hend hfinished =>
      have hsome : (Observed.event (.update dt) ⟨i, a⟩ w).leftover? = some leftover :=
        Event.leftover?_eq_some_iff.mpr (congrArg some hfinished)
      exact .inl ⟨hend, leftover, by simp [leftovers, hsome], rfl⟩
  | @passes i passed dt leftover a next w w' events tick hfinished _ _ _ ih =>
      have hsome : (Observed.event (.update dt) ⟨i, a⟩ w).leftover? = some leftover :=
        Event.leftover?_eq_some_iff.mpr (congrArg some hfinished)
      have hnone : (Observed.event .start ⟨i + 1, next⟩ w').leftover? = none :=
        Observed.leftover?_event .start nofun _ _
      rw [Nat.add_comm passed, ← Nat.add_assoc]
      refine ih.imp_left (And.imp_right ?_)
      rintro ⟨last, hlast, htick⟩
      refine ⟨last, ?_, htick⟩
      rw [leftovers, List.filterMap_cons, hsome, List.filterMap_cons, hnone]
      change (leftover :: leftovers events).getLast? = some last
      rw [List.getLast?_cons, hlast, Option.getD_some]

/-- The ticks reach the first child as it is, and those behind it as a start has left them. -/
theorem before_of_mem (h : Relayed l i dt a w events tick passed) {e : Event α W} (he : e ∈ events)
    {dt' : Float32} (hcall : e.call = .update dt') :
    e.before = a ∨
      ∃ (j : ℕ) (next : α) (w' : W), i < j ∧ l[j]? = some next ∧
        e.before = (Animation.start next w').1 := by
  induction h with
  | stays _ _ => exact .inl (by simp [List.mem_singleton.mp he, Observed.event])
  | ends _ _ => exact .inl (by simp [List.mem_singleton.mp he, Observed.event])
  | @passes i passed dt leftover a next w w' events tick _ _ hnext _ ih =>
      simp only [List.mem_cons] at he
      rcases he with rfl | rfl | he
      · exact .inl rfl
      · cases hcall
      · refine .inr ?_
        rcases ih he with hbefore | ⟨j, next', v, hlt, hnext', hbefore⟩
        · exact ⟨i + 1, next, w', Nat.lt_succ_self i, hnext, hbefore⟩
        · exact ⟨j, next', v, by omega, hnext', hbefore⟩

end Relayed

/-! ## Sequences under observation -/

namespace Sequence

variable [Animation α W]

/-- The sequence with its children under observation. -/
def observed (s : Sequence α) : Sequence (Observed α) :=
  { s with children := Observed.number 0 s.children }

/-- What reaches the children when a call is made. -/
def events (c : Call) (s : Sequence α) (w : W) : List (Event α W) :=
  (Animation.perform c s.observed (w, [])).2.2.2

theorem matches_observed (s : Sequence α) :
    s.observed.Matches (fun (o : Observed α) a => o.inner = a) s :=
  ⟨Observed.forall₂_number 0 s.children, rfl, rfl⟩

/-- Nothing changes under observation: neither the answer, nor what becomes of the sequence and of
the world. -/
theorem perform_observed (c : Call) (s : Sequence α) (w : W) (log : List (Event α W)) :
    (Animation.perform c s.observed (w, log)).1 = (Animation.perform c s w).1 ∧
      Paired (Sequence.Matches fun (o : Observed α) a => o.inner = a)
        (fun (v : W × List (Event α W)) w => v.1 = w)
        (Animation.perform c s.observed (w, log)).2 (Animation.perform c s w).2 :=
  Observed.lockstep.sequence.perform c s.matches_observed rfl

/-- A call other than a tick reaches at most the child at the cursor. -/
theorem events_visitAt (c : Call) {i k : ℕ} {l : List α} (w : W) (log : List (Event α W)) :
    (visitAt (Observed.pass c) k (Observed.number i l) (w, log)).2.2 =
      log ++ (l[k]?.map fun a => Observed.event c ⟨i + k, a⟩ w).toList := by
  induction l generalizing i k with
  | nil => cases k <;> simp [Observed.number, visitAt]
  | cons a l ih =>
      cases k with
      | zero => rfl
      | succ k =>
          rw [List.getElem?_cons_succ, Nat.add_comm k, ← Nat.add_assoc, Nat.add_comm 1]
          exact ih

theorem exists_relayed_advance {l rest : List α} {i : ℕ} (hrest : l.drop (i + 1) = rest)
    (hi : i < l.length) (dt : Float32) (a : α) (w : W) (log : List (Event α W)) :
    let step := advance dt (⟨i, a⟩ : Observed α) (Observed.number (i + 1) rest) (w, log)
    ∃ events, step.world.2 = log ++ events ∧
      Relayed l i dt a w events step.tick step.passed := by
  -- the next child is given what is left, with one event more in the log
  induction rest generalizing i dt a w log with
  | nil =>
      cases hfinished : (Animation.update dt (⟨i, a⟩ : Observed α) (w, log)).1 with
      | finished leftover =>
          rw [Observed.number, advance_nil hfinished]
          have hlength := List.drop_eq_nil_iff.mp hrest
          exact ⟨_, rfl, .ends (by omega) hfinished⟩
      | _ =>
          have hgo : (Animation.update dt (⟨i, a⟩ : Observed α) (w, log)).1.isFinished = false := by
            rw [hfinished]; rfl
          rw [Observed.number, advance_of_not_finished hgo]
          exact ⟨_, rfl, .stays hi hgo⟩
  | cons next rest ih =>
      cases hfinished : (Animation.update dt (⟨i, a⟩ : Observed α) (w, log)).1 with
      | finished leftover =>
          obtain ⟨hnext, htail⟩ := List.of_drop_eq_cons hrest
          have hlt : i + 1 < l.length := (List.getElem?_eq_some_iff.mp hnext).1
          let w' := (Animation.update dt a w).2.2
          rw [Observed.number, advance_cons hfinished]
          obtain ⟨events, hlog, hrelayed⟩ := ih htail hlt leftover (Animation.start next w').1
            (Animation.start next w').2 (log ++ [Observed.event (.update dt) ⟨i, a⟩ w] ++
              [Observed.event .start ⟨i + 1, next⟩ w'])
          exact ⟨_, hlog.trans (by simp [w']), .passes hfinished rfl hnext hrelayed⟩
      | _ =>
          have hgo : (Animation.update dt (⟨i, a⟩ : Observed α) (w, log)).1.isFinished = false := by
            rw [hfinished]; rfl
          rw [advance_of_not_finished hgo]
          exact ⟨_, rfl, .stays hi hgo⟩

/-! ## Calls to a sequence -/

variable {s : Sequence α} {log : List (Event α W)} {n : ℕ}

theorem events_start (s : Sequence α) (w : W) :
    s.events .start w =
      (s.children[s.cursor]?.map fun a => Observed.event .start ⟨s.cursor, a⟩ w).toList := by
  have h := events_visitAt .start (i := 0) (k := s.cursor) (l := s.children) w []
  rwa [Nat.zero_add] at h

theorem events_stop (s : Sequence α) (w : W) :
    s.events .stop w =
      (s.children[s.cursor]?.map fun a => Observed.event .stop ⟨s.cursor, a⟩ w).toList := by
  have h := events_visitAt .stop (i := 0) (k := s.cursor) (l := s.children) w []
  rwa [Nat.zero_add] at h

/-- What is neither a tick nor a reset reaches the child at the cursor, if there is one. -/
theorem eachOnce_here (c : Call) (s : Sequence α) (w : W) :
    EachOnce (s.children[s.cursor]?.map fun a => Observed.event c ⟨s.cursor, a⟩ w).toList c
      fun i => i = s.cursor ∧ i < s.length := by
  cases ha : s.children[s.cursor]? with
  | none =>
      refine .nil fun i hi => ?_
      exact Nat.not_lt_of_le (List.getElem?_eq_none_iff.mp ha) (hi.1 ▸ hi.2)
  | some a =>
      have hlt : s.cursor < s.length := (List.getElem?_eq_some_iff.mp ha).1
      refine (Observed.eachOnce_event c ⟨s.cursor, a⟩ w).congr fun i => ?_
      exact ⟨fun hi => ⟨hi, hi ▸ hlt⟩, And.left⟩

theorem eachOnce_events_reset (s : Sequence α) (w : W) :
    EachOnce (s.events .reset w) .reset (· < s.length) := by
  have hvisit : Along (fun i (o : Observed α) => ∀ v : W × List (Event α W), ∃ events,
      (Animation.reset o v).2.2 = v.2 ++ events ∧
        EachOnce events .reset fun j => j = i ∧ True) 0 (Observed.number 0 s.children) := by
    refine (Observed.along_number 0 s.children).imp ?_
    rintro _ o rfl v
    exact ⟨_, rfl, (o.eachOnce_event .reset v.1).congr fun j => by rw [and_true]⟩
  obtain ⟨events, hevents, honce⟩ := exists_events_visitAll hvisit (w, [])
  rw [show s.events .reset w = events from hevents]
  refine honce.congr fun j => ?_
  rw [Observed.length_number]
  simp [length]

theorem events_update_of_halted (hrunning : s.running = false) (dt : Float32) (w : W) :
    s.events (.update dt) w = [] := by
  have hupdate := update_of_halted (s := s.observed) hrunning dt (w, ([] : List (Event α W)))
  exact congrArg (fun r => r.2.2.2) hupdate

theorem events_update_of_complete (hrunning : s.running = true) (hcursor : s.cursor = s.length)
    (dt : Float32) (w : W) : s.events (.update dt) w = [] := by
  have hlength : s.observed.cursor = s.observed.length :=
    hcursor.trans (Observed.length_number 0 s.children).symm
  have hupdate : Sequence.update dt s.observed (w, ([] : List (Event α W))) = _ :=
    update_of_complete hrunning hlength
  exact congrArg (fun r => r.2.2.2) hupdate

theorem exists_relayed_update (hrunning : s.running = true) (hcursor : s.cursor < s.length)
    (dt : Float32) (w : W) :
    ∃ a passed, s.children[s.cursor]? = some a ∧
      Relayed s.children s.cursor dt a w (s.events (.update dt) w) (s.update dt w).1 passed ∧
      (s.update dt w).2.1.cursor = s.cursor + passed := by
  obtain ⟨a, rest, hdrop⟩ := exists_drop_eq hcursor
  obtain ⟨ha, hrest⟩ := List.of_drop_eq_cons hdrop
  have hdrop' : s.observed.children.drop s.observed.cursor =
      ⟨s.cursor, a⟩ :: Observed.number (s.cursor + 1) rest := by
    change (Observed.number 0 s.children).drop s.cursor = _
    rw [Observed.drop_number, hdrop, Nat.zero_add, Observed.number]
  obtain ⟨events, hevents, hrelayed⟩ := exists_relayed_advance hrest hcursor dt a w []
  have hupdate : Sequence.update dt s.observed (w, ([] : List (Event α W))) = _ :=
    update_of_drop hrunning hdrop'
  obtain ⟨hanswer, hsame, -⟩ := s.perform_observed (.update dt) w []
  have htick : (s.observed.update dt (w, [])).1 = (s.update dt w).1 := Option.some.inj hanswer
  have hlog : s.events (.update dt) w = events :=
    (congrArg (fun r => r.2.2.2) hupdate).trans hevents
  rw [hlog, ← htick, hupdate]
  refine ⟨a, _, ha, hrelayed, hsame.cursor.symm.trans ?_⟩
  exact congrArg (fun r => r.2.1.cursor) hupdate

/-- A running sequence goes on until a tick reports that it is over. -/
theorem running_update (hrunning : s.running = true) (dt : Float32) (w : W) :
    (s.update dt w).2.1.running = !(s.update dt w).1.isFinished := by
  unfold update
  rw [if_pos hrunning]
  split <;> rfl

/-- The ticks reach the child at the cursor as it is, and those behind it as a start has left
them. -/
theorem before_of_mem_events (hcursor : s.cursor ≤ s.length) {dt dt' : Float32} {w : W}
    {e : Event α W} (he : e ∈ s.events (.update dt) w) (hcall : e.call = .update dt') :
    s.children[s.cursor]? = some e.before ∨
      ∃ (j : ℕ) (next : α) (w' : W), s.cursor < j ∧ s.children[j]? = some next ∧
        e.before = (Animation.start next w').1 := by
  cases hrunning : s.running with
  | false => simp [events_update_of_halted hrunning] at he
  | true =>
      rcases Nat.lt_or_eq_of_le hcursor with hlt | hend
      · obtain ⟨a, passed, ha, hrelayed, -⟩ := exists_relayed_update hrunning hlt dt w
        refine (hrelayed.before_of_mem he hcall).imp_left fun hbefore => ?_
        rw [ha, hbefore]
      · simp [events_update_of_complete hrunning hend] at he

theorem length_perform (c : Call) (hcursor : s.cursor ≤ s.length) (w : W) :
    (Animation.perform c s w).2.1.length = s.length := by
  cases c with
  | start => exact length_visitAt _ _ _ _
  | stop => exact length_visitAt _ _ _ _
  | reset => exact length_visitAll _ _ _
  | update dt =>
      change (s.update dt w).2.1.length = s.length
      by_cases hrunning : s.running = true
      · rcases Nat.lt_or_eq_of_le hcursor with hlt | hend
        · have hrelay : Relay (fun _ _ => True) (fun _ _ => True) (fun _ (_ : α) (_ : W) => True)
              (fun _ _ => True) (fun _ _ _ _ => True) (fun _ _ _ => True) := by
            constructor <;> intros <;> trivial
          have hline : Line (fun _ _ => True) (fun _ _ => True) (fun _ (_ : α) (_ : W) => True)
              (fun _ _ => True) 0 s.cursor s.children w :=
            Line.ofKnown (.ofForall (fun _ _ => trivial) _ _) hcursor
          exact (hrelay.update dt hline (fun _ _ _ => trivial) hrunning hlt).2.1
        · rw [update_of_complete hrunning hend]
          rfl
      · unfold Sequence.update
        rw [if_neg hrunning]

/-- What a call does to the log. -/
theorem inTurn_events (hlog : FirstOver log s.cursor) (hcursor : s.cursor ≤ s.length) (c : Call)
    (w : W) :
    InTurn s.length log (s.events c w) ∧
      FirstOver (log ++ s.events c w) (Animation.perform c s w).2.1.cursor ∧
      (Animation.perform c s w).2.1.cursor ≤ s.length := by
  -- a start and a stop are alike
  have hvisit : ∀ c : Call, (∀ dt, c ≠ .update dt) → c ≠ .reset →
      let events : List (Event α W) :=
        (s.children[s.cursor]?.map fun a => Observed.event c ⟨s.cursor, a⟩ w).toList
      InTurn s.length log events ∧ FirstOver (log ++ events) s.cursor := by
    intro c hupdate hreset
    cases s.children[s.cursor]? with
    | none => exact ⟨.nil, by rwa [Option.map_none, Option.toList_none, List.append_nil]⟩
    | some a =>
        have hnone : (Observed.event c ⟨s.cursor, a⟩ w).leftover? = none :=
          Observed.leftover?_event c hupdate _ _
        exact ⟨.single hlog hnone, hlog.other hreset hnone⟩
  cases c with
  | start =>
      rw [events_start]
      obtain ⟨hinTurn, hover⟩ := hvisit .start nofun nofun
      exact ⟨hinTurn, hover, hcursor⟩
  | stop =>
      rw [events_stop]
      obtain ⟨hinTurn, hover⟩ := hvisit .stop nofun nofun
      exact ⟨hinTurn, hover, hcursor⟩
  | reset =>
      have honce := s.eachOnce_events_reset w
      refine ⟨.ofReset honce, fun i => ?_, Nat.zero_le _⟩
      refine iff_of_false (honce.not_over fun hover => ?_) (Nat.not_lt_zero i)
      exact Nat.lt_of_lt_of_le ((hlog i).mp hover) hcursor
  | update dt =>
      change _ ∧ FirstOver _ (s.update dt w).2.1.cursor ∧ (s.update dt w).2.1.cursor ≤ _
      by_cases hrunning : s.running = true
      · rcases Nat.lt_or_eq_of_le hcursor with hlt | hend
        · obtain ⟨a, passed, -, hrelayed, hpassed⟩ := exists_relayed_update hrunning hlt dt w
          rw [hpassed]
          obtain ⟨hinTurn, hover⟩ := hrelayed.inTurn hlog
          refine ⟨hinTurn, hover, hrelayed.answer.elim ?_ ?_⟩
          · exact fun h => Nat.le_of_eq h.1
          · exact fun h => Nat.le_of_lt h.1
        · rw [events_update_of_complete hrunning hend, update_of_complete hrunning hend,
            List.append_nil]
          exact ⟨.nil, hlog, hcursor⟩
      · rw [Bool.not_eq_true] at hrunning
        rw [events_update_of_halted hrunning, List.append_nil]
        have hsame : s.update dt w = (.idle, s, w) := update_of_halted hrunning dt w
        rw [hsame]
        exact ⟨.nil, hlog, hcursor⟩

/-- In every state that calls lead to, the children before the cursor are those that are over. -/
theorem firstOver_of_chronicle {children : List α}
    (h : Chronicle events (.ofList children) log s) :
    InTurn children.length [] log ∧ FirstOver log s.cursor ∧ s.cursor ≤ s.length ∧
      s.length = children.length := by
  induction h with
  | built => exact ⟨.nil, .nil, Nat.zero_le _, rfl⟩
  | call c w _ ih =>
      obtain ⟨hrun, hlog, hcursor, hlength⟩ := ih
      obtain ⟨hinTurn, hover, hle⟩ := inTurn_events hlog hcursor c w
      have hsame := length_perform c hcursor w
      exact ⟨hrun.append (hlength ▸ hinTurn), hover, hsame ▸ hle, hsame.trans hlength⟩

/-- Whatever the children are, and whatever is called, they take turns. A start and a stop reach
the child at the cursor, and a reset reaches all of them and brings the cursor back to the first.
While the sequence is halted, as it is when it is built, stopped or reset, a tick reaches none of
them. While it is running a tick ends with the report that the sequence is over exactly if all
children are over by then, and leaves over what the last of them has reported in this tick, or all
of it if there was none to be played. -/
theorem plays_in_turn {children : List α} (h : Chronicle events (.ofList children) log s) :
    InTurn children.length [] log ∧ FirstOver log s.cursor ∧
      (ofList children).running = false ∧
      (∀ w : W,
        let started := (Animation.start s w).1
        EachOnce (s.events .start w) .start (fun i => i = s.cursor ∧ i < children.length) ∧
          started.cursor = s.cursor ∧ started.running = true) ∧
      (∀ w : W,
        let stopped := (Animation.stop s w).1
        EachOnce (s.events .stop w) .stop (fun i => i = s.cursor ∧ i < children.length) ∧
          stopped.cursor = s.cursor ∧ stopped.running = false) ∧
      (∀ w : W,
        let rewound := (Animation.reset s w).1
        EachOnce (s.events .reset w) .reset (· < children.length) ∧
          rewound.cursor = 0 ∧ rewound.running = false) ∧
      ∀ (dt : Float32) (w : W),
        let reached := s.events (.update dt) w
        let result := Animation.update dt s w
        InTurn children.length log reached ∧
          (s.running = false → reached = [] ∧ result = (.idle, s, w)) ∧
          (s.running = true →
            (result.2.1.cursor = children.length ∧ result.2.1.running = false ∧
                result.1 = .finished ((leftovers reached).getLast?.getD dt)) ∨
              (result.2.1.cursor < children.length ∧ result.2.1.running = true ∧
                result.1 = .running)) := by
  obtain ⟨hrun, hlog, hcursor, hlength⟩ := firstOver_of_chronicle h
  rw [← hlength] at hrun ⊢
  refine ⟨hrun, hlog, rfl, fun w => ⟨?_, rfl, rfl⟩, fun w => ⟨?_, rfl, rfl⟩,
    fun w => ⟨s.eachOnce_events_reset w, rfl, rfl⟩,
    fun dt w => ⟨(inTurn_events hlog hcursor (.update dt) w).1, fun hrunning => ?_,
      fun hrunning => ?_⟩⟩
  · rw [events_start]
    exact s.eachOnce_here .start w
  · rw [events_stop]
    exact s.eachOnce_here .stop w
  · exact ⟨events_update_of_halted hrunning dt w, update_of_halted hrunning dt w⟩
  · have hgoes := running_update hrunning dt w
    change ((s.update dt w).2.1.cursor = _ ∧ (s.update dt w).2.1.running = _ ∧
        (s.update dt w).1 = _) ∨
      ((s.update dt w).2.1.cursor < _ ∧ (s.update dt w).2.1.running = _ ∧ (s.update dt w).1 = _)
    rcases Nat.lt_or_eq_of_le hcursor with hlt | hend
    · obtain ⟨a, passed, -, hrelayed, hpassed⟩ := exists_relayed_update hrunning hlt dt w
      rw [hpassed]
      rcases hrelayed.answer with ⟨hover, leftover, hlast, htick⟩ | ⟨hfront, htick⟩
      · rw [htick] at hgoes
        exact .inl ⟨hover, hgoes, by rw [htick, hlast, Option.getD_some]⟩
      · rw [htick] at hgoes
        exact .inr ⟨hfront, hgoes, htick⟩
    · rw [events_update_of_complete hrunning hend, update_of_complete hrunning hend]
      exact .inl ⟨hend, rfl, rfl⟩

/-- Two waits of 100 milliseconds each, after a start and a tick of 150, and the tick or the reset
after that. -/
theorem plays_in_turn_waits :
    ∃ (log : List (Event Wait Unit)) (s : Sequence Wait),
      Chronicle events (.ofList [{ duration := ofCount 100 }, { duration := ofCount 100 }]) log s ∧
      log.map (·.child) = [0, 0, 1, 1] ∧ s.cursor = 1 ∧ s.running = true ∧
      InTurn 2 [] log ∧ FirstOver log 1 ∧
      (Animation.update (ofCount 60) s ()).2.1.cursor = 2 ∧
      (Animation.update (ofCount 60) s ()).1 =
        .finished ((leftovers (s.events (.update (ofCount 60)) ())).getLast?.getD
          (ofCount 60)) ∧
      EachOnce (s.events .reset ()) .reset (· < 2) ∧ (Animation.reset s ()).1.cursor = 0 := by
  have hbuilt : Chronicle (W := Unit) events
      (.ofList [{ duration := ofCount 100 }, { duration := ofCount 100 }] : Sequence Wait) []
      (.ofList [{ duration := ofCount 100 }, { duration := ofCount 100 }]) := .built
  have hchronicle := (hbuilt.call .start ()).call (.update (ofCount 150)) ()
  obtain ⟨hrun, hlog, -, -, -, hreset, htick⟩ := plays_in_turn hchronicle
  obtain ⟨-, -, hrunning⟩ := htick (ofCount 60) ()
  obtain ⟨honce, hcursor, -⟩ := hreset ()
  refine ⟨_, _, hchronicle, by decide +kernel, by decide +kernel, by decide +kernel, hrun, hlog,
    by decide +kernel, ?_, honce, hcursor⟩
  rcases hrunning (by decide +kernel) with ⟨-, -, hfinished⟩ | ⟨hlt, -⟩
  · exact hfinished
  · exact absurd hlt (by decide +kernel)

end Sequence

end Storyboard
