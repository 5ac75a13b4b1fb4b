import Storyboard.Proofs.Playback.Lockstep

/-! # What reaches the children

An animation that is composed of others passes calls on to them. To see which ones, its children
are put under observation: each of them then writes down what reaches it, and is otherwise as
before. Nothing is assumed of the children, so what is said here of composed animations holds
whatever they are composed of.
-/

namespace Storyboard

variable {α W : Type}

/-- The time left over by an animation that is over. -/
def Tick.leftover? : Tick → Option Float32
  | finished leftover => some leftover
  | _ => none

theorem Tick.leftover?_eq_some_iff {tick : Tick} {leftover : Float32} :
    tick.leftover? = some leftover ↔ tick = .finished leftover := by
  cases tick with
  | finished l => rw [leftover?, Option.some_inj, Tick.finished.injEq]
  | _ => exact iff_of_false nofun nofun

/-- A call that reached a child, and what came of it. -/
structure Event (α W : Type) where
  /-- The index of the child. -/
  child : ℕ
  call : Call
  /-- Only a tick has an answer. -/
  answer : Option Tick
  /-- The child before the call. -/
  before : α
  /-- The world that the call was made in. -/
  world : W

namespace Event

/-- The time that the child has left over, if it was over in this event. -/
def leftover? (e : Event α W) : Option Float32 :=
  e.answer.bind Tick.leftover?

/-- In this event the child of that index reported that it was over. -/
def Ends (e : Event α W) (i : ℕ) : Prop :=
  e.child = i ∧ e.leftover?.isSome

/-- In this event the child of that index was reset. -/
def Clears (e : Event α W) (i : ℕ) : Prop :=
  e.child = i ∧ e.call = .reset

/-- The answer is what comes of the call to the child. -/
def Genuine [Animation α W] (e : Event α W) : Prop :=
  e.answer = (Animation.perform e.call e.before e.world).1

theorem leftover?_eq_some_iff {e : Event α W} {leftover : Float32} :
    e.leftover? = some leftover ↔ e.answer = some (.finished leftover) := by
  unfold leftover?
  cases e.answer with
  | none => exact iff_of_false nofun nofun
  | some tick => exact Tick.leftover?_eq_some_iff.trans Option.some_inj.symm

theorem leftover?_of_not_finished {e : Event α W} {tick : Tick} (h : e.answer = some tick)
    (hgo : tick.isFinished = false) : e.leftover? = none := by
  rw [Option.eq_none_iff_forall_ne_some]
  intro leftover hleftover
  rw [leftover?_eq_some_iff, h, Option.some_inj] at hleftover
  rw [hleftover] at hgo
  cases hgo

/-- Only a tick can show that a child is over. -/
theorem Genuine.leftover?_eq_none [Animation α W] {e : Event α W} (h : e.Genuine)
    (hcall : ∀ dt, e.call ≠ .update dt) : e.leftover? = none := by
  rw [Option.eq_none_iff_forall_ne_some]
  intro leftover hleftover
  rw [leftover?_eq_some_iff, h] at hleftover
  cases hc : e.call with
  | update dt => exact hcall dt hc
  | _ =>
      rw [hc] at hleftover
      cases hleftover

end Event

/-! ## Logs -/

/-- The times left over in some events, in order. -/
def leftovers (log : List (Event α W)) : List Float32 :=
  log.filterMap Event.leftover?

/-- By the log, the child of that index has reported that it is over, and has not been reset
since. -/
def Over (log : List (Event α W)) (i : ℕ) : Prop :=
  ∃ before e after, log = before ++ e :: after ∧ e.Ends i ∧ ∀ e' ∈ after, ¬ e'.Clears i

theorem not_over_nil (i : ℕ) : ¬ Over ([] : List (Event α W)) i := by
  rintro ⟨before, e, after, h, -⟩
  exact List.append_ne_nil_of_right_ne_nil _ (List.cons_ne_nil _ _) h.symm

/-- Only the last event and what was before it matter. -/
theorem over_concat {log : List (Event α W)} {e : Event α W} {i : ℕ} :
    Over (log ++ [e]) i ↔ e.Ends i ∨ (Over log i ∧ ¬ e.Clears i) := by
  constructor
  · rintro ⟨before, e', after, hlog, hends, hafter⟩
    rcases List.eq_nil_or_concat after with rfl | ⟨after, last, rfl⟩
    · obtain ⟨-, heq⟩ := List.append_inj' hlog rfl
      cases heq
      exact .inl hends
    · rw [List.concat_eq_append, ← List.cons_append, ← List.append_assoc] at hlog
      obtain ⟨rfl, heq⟩ := List.append_inj' hlog rfl
      cases heq
      rw [List.concat_eq_append] at hafter
      exact .inr ⟨⟨before, e', after, rfl, hends, fun x hx =>
        hafter x (List.mem_append_left _ hx)⟩, hafter e (by simp)⟩
  · rintro (hends | ⟨⟨before, e', after, rfl, hends, hafter⟩, hclears⟩)
    · exact ⟨log, e, [], rfl, hends, nofun⟩
    · refine ⟨before, e', after ++ [e], by simp, hends, fun x hx => ?_⟩
      rcases List.mem_append.mp hx with hx | hx
      · exact hafter x hx
      · rw [List.mem_singleton.mp hx]
        exact hclears

/-- As long as a child is not reset it stays over, or comes to be so. -/
theorem over_append_of_not_clears {log events : List (Event α W)} {i : ℕ}
    (h : ∀ e ∈ events, ¬ e.Clears i) :
    Over (log ++ events) i ↔ Over log i ∨ ∃ e ∈ events, e.Ends i := by
  induction events generalizing log with
  | nil => simp
  | cons e events ih =>
      obtain ⟨hclears, hevents⟩ := List.forall_mem_cons.mp h
      rw [List.append_cons, ih hevents, over_concat, List.exists_mem_cons_iff, and_iff_left hclears,
        or_comm (a := e.Ends i), or_assoc]

/-- A child that is over is not so for long if it is reset. -/
theorem not_over_append {log events : List (Event α W)} {i : ℕ}
    (hends : ∀ e ∈ events, ¬ e.Ends i) (hclears : Over log i → ∃ e ∈ events, e.Clears i) :
    ¬ Over (log ++ events) i := by
  induction events generalizing log with
  | nil =>
      rw [List.append_nil]
      intro hover
      obtain ⟨e, he, -⟩ := hclears hover
      cases he
  | cons e events ih =>
      obtain ⟨hend, hends⟩ := List.forall_mem_cons.mp hends
      rw [List.append_cons]
      refine ih hends fun hover => ?_
      obtain ⟨hover, hclear⟩ := (over_concat.mp hover).resolve_left hend
      obtain ⟨e', he', hclears'⟩ := hclears hover
      rcases List.mem_cons.mp he' with rfl | he'
      · exact absurd hclears' hclear
      · exact ⟨e', he', hclears'⟩

/-- The call reaches each of these children once, in their order, and nothing else happens. -/
structure EachOnce [Animation α W] (events : List (Event α W)) (c : Call) (who : ℕ → Prop) :
    Prop where
  ordered : (events.map (·.child)).Pairwise (· < ·)
  children : ∀ i, i ∈ events.map (·.child) ↔ who i
  call : ∀ e ∈ events, e.call = c
  genuine : ∀ e ∈ events, e.Genuine

namespace EachOnce

variable [Animation α W] {events events' : List (Event α W)} {c : Call} {who who' : ℕ → Prop}

theorem nil (h : ∀ i, ¬ who i) : EachOnce ([] : List (Event α W)) c who :=
  ⟨.nil, fun i => ⟨nofun, fun hi => absurd hi (h i)⟩, nofun, nofun⟩

theorem singleton {e : Event α W} (hcall : e.call = c) (hgenuine : e.Genuine)
    (h : ∀ i, who i ↔ i = e.child) : EachOnce [e] c who where
  ordered := List.pairwise_singleton _ _
  children i := List.mem_singleton.trans (h i).symm
  call := List.forall_mem_singleton.mpr hcall
  genuine := List.forall_mem_singleton.mpr hgenuine

theorem congr (h : EachOnce events c who) (hiff : ∀ i, who i ↔ who' i) :
    EachOnce events c who' :=
  ⟨h.ordered, fun i => (h.children i).trans (hiff i), h.call, h.genuine⟩

theorem append (h : EachOnce events c who) (h' : EachOnce events' c who')
    (hlt : ∀ i j, who i → who' j → i < j) :
    EachOnce (events ++ events') c fun i => who i ∨ who' i where
  ordered := by
    rw [List.map_append]
    refine List.pairwise_append.mpr ⟨h.ordered, h'.ordered, fun i hi j hj => ?_⟩
    exact hlt i j ((h.children i).mp hi) ((h'.children j).mp hj)
  children i := by
    rw [List.map_append, List.mem_append, h.children, h'.children]
  call := List.forall_mem_append.mpr ⟨h.call, h'.call⟩
  genuine := List.forall_mem_append.mpr ⟨h.genuine, h'.genuine⟩

theorem who_child (h : EachOnce events c who) {e : Event α W} (he : e ∈ events) : who e.child :=
  (h.children _).mp (List.mem_map_of_mem he)

/-- In such events no child is over, unless the call is a tick. -/
theorem leftover?_eq_none (h : EachOnce events c who) (hc : ∀ dt, c ≠ .update dt) {e : Event α W}
    (he : e ∈ events) : e.leftover? = none :=
  (h.genuine e he).leftover?_eq_none fun dt => h.call e he ▸ hc dt

/-- A child that is over stays so, unless the call is a reset. -/
theorem over_append (h : EachOnce events c who) (hc : c ≠ .reset) {log : List (Event α W)}
    {i : ℕ} : Over (log ++ events) i ↔ Over log i ∨ ∃ e ∈ events, e.Ends i :=
  over_append_of_not_clears fun e he hclears => hc ((h.call e he).symm.trans hclears.2)

/-- Only in a tick a child comes to be over. -/
theorem not_ends (h : EachOnce events c who) (hc : ∀ dt, c ≠ .update dt) (i : ℕ) :
    ∀ e ∈ events, ¬ e.Ends i := by
  intro e he hends
  have hsome := hends.2
  rw [h.leftover?_eq_none hc he] at hsome
  cases hsome

/-- A reset that reaches all children that are over. -/
theorem not_over (h : EachOnce events .reset who) {log : List (Event α W)} {i : ℕ}
    (hwho : Over log i → who i) : ¬ Over (log ++ events) i := by
  refine not_over_append (h.not_ends nofun i) fun hover => ?_
  obtain ⟨e, he, hchild⟩ := List.mem_map.mp ((h.children i).mpr (hwho hover))
  exact ⟨e, he, hchild, h.call e he⟩

end EachOnce

/-! ## Observation -/

/-- An animation under observation. -/
structure Observed (α : Type) where
  index : ℕ
  inner : α

namespace Observed

variable [Animation α W]

/-- What is written down when a call is made. -/
def event (c : Call) (o : Observed α) (w : W) : Event α W :=
  ⟨o.index, c, (Animation.perform c o.inner w).1, o.inner, w⟩

/-- Passes a call on and writes it down. -/
def pass (c : Call) (o : Observed α) (w : W × List (Event α W)) :
    Observed α × W × List (Event α W) :=
  let (_, inner, world) := Animation.perform c o.inner w.1
  ({ o with inner }, world, w.2 ++ [o.event c w.1])

instance : Animation (Observed α) (W × List (Event α W)) where
  start := pass .start
  update dt o w := ((Animation.update dt o.inner w.1).1, pass (.update dt) o w)
  stop := pass .stop
  reset := pass .reset

/-- Puts animations under observation; the first has that index. -/
def number : ℕ → List α → List (Observed α)
  | _, [] => []
  | i, a :: rest => ⟨i, a⟩ :: number (i + 1) rest

theorem length_number (i : ℕ) (l : List α) : (number i l).length = l.length := by
  induction l generalizing i with
  | nil => rfl
  | cons a l ih => exact congrArg (· + 1) (ih (i + 1))

theorem drop_number (i k : ℕ) (l : List α) : (number i l).drop k = number (i + k) (l.drop k) := by
  induction l generalizing i k with
  | nil => simp [number]
  | cons a l ih =>
      cases k with
      | zero => rfl
      | succ k =>
          rw [number, List.drop_succ_cons, List.drop_succ_cons, ih, Nat.add_assoc, Nat.add_comm 1]

theorem along_number (i : ℕ) (l : List α) :
    Along (fun j (o : Observed α) => o.index = j) i (number i l) := by
  induction l generalizing i with
  | nil => trivial
  | cons a l ih => exact ⟨rfl, ih (i + 1)⟩

theorem genuine_event (c : Call) (o : Observed α) (w : W) : (o.event c w).Genuine := rfl

theorem leftover?_event (c : Call) (hc : ∀ dt, c ≠ .update dt) (o : Observed α) (w : W) :
    (o.event c w).leftover? = none :=
  (genuine_event c o w).leftover?_eq_none hc

/-- One event is written down. -/
theorem eachOnce_event (c : Call) (o : Observed α) (w : W) :
    EachOnce [o.event c w] c fun i => i = o.index :=
  .singleton rfl (genuine_event c o w) fun _ => Iff.rfl

/-- An observed animation is what it was before, and so is the world but for the log. -/
theorem lockstep : Lockstep (fun (o : Observed α) a => o.inner = a)
    (fun (v : W × List (Event α W)) w => v.1 = w) :=
  .ofPerform fun c => by
    rintro o _ v _ rfl rfl
    cases c <;> exact ⟨rfl, rfl, rfl⟩

theorem forall₂_number (i : ℕ) (l : List α) :
    List.Forall₂ (fun (o : Observed α) a => o.inner = a) (number i l) l := by
  induction l generalizing i with
  | nil => exact .nil
  | cons a l ih => exact .cons rfl (ih (i + 1))

end Observed

theorem exists_of_mem_forall₂ {α β : Type} {R : α → β → Prop} {l : List α} {l' : List β}
    (h : List.Forall₂ R l l') {a : α} (ha : a ∈ l) : ∃ b ∈ l', R a b := by
  induction h with
  | nil => cases ha
  | cons hab _ ih =>
      rcases List.mem_cons.mp ha with rfl | ha
      · exact ⟨_, List.mem_cons_self, hab⟩
      · obtain ⟨b, hb, hR⟩ := ih ha
        exact ⟨b, List.mem_cons_of_mem _ hb, hR⟩

/-- Elements are visited one after another. If the call reaches those that are chosen, it reaches
each of them once. -/
theorem exists_events_visitAll [Animation α W] {β : Type} {c : Call} {chosen : ℕ → Prop}
    {f : β → W × List (Event α W) → β × W × List (Event α W)} {i : ℕ} {l : List β}
    (h : Along (fun i b => ∀ w, ∃ events, (f b w).2.2 = w.2 ++ events ∧
      EachOnce events c fun j => j = i ∧ chosen i) i l) (w : W × List (Event α W)) :
    ∃ events, (visitAll f l w).2.2 = w.2 ++ events ∧
      EachOnce events c fun j => i ≤ j ∧ j < i + l.length ∧ chosen j := by
  induction l generalizing i w with
  | nil =>
      refine ⟨[], (List.append_nil _).symm, .nil fun j => ?_⟩
      simp only [List.length_nil]
      omega
  | cons b l ih =>
      obtain ⟨head, hhead, hfirst⟩ := h.1 w
      obtain ⟨tail, htail, hrest⟩ := ih h.2 (f b w).2
      refine ⟨head ++ tail, ?_, (hfirst.append hrest fun j k hj hk => ?_).congr fun j => ?_⟩
      · rw [← List.append_assoc, ← hhead]
        exact htail
      · omega
      · simp only [List.length_cons]
        constructor
        · rintro (⟨rfl, hj⟩ | ⟨hle, hlt, hj⟩)
          · exact ⟨Nat.le_refl _, by omega, hj⟩
          · exact ⟨by omega, by omega, hj⟩
        · rintro ⟨hle, hlt, hj⟩
          rcases Nat.eq_or_lt_of_le hle with rfl | hlt'
          · exact .inl ⟨rfl, hj⟩
          · exact .inr ⟨hlt', by omega, hj⟩

/-- The states to which calls bring an animation, with the log of what has reached its children
since it was built. Between the calls anything may happen to the world. -/
inductive Chronicle {σ : Type} [Animation σ W] (events : Call → σ → W → List (Event α W))
    (built : σ) : List (Event α W) → σ → Prop
  | built : Chronicle events built [] built
  | call {log : List (Event α W)} {s : σ} (c : Call) (w : W) : Chronicle events built log s →
      Chronicle events built (log ++ events c s w) (Animation.perform c s w).2.1

end Storyboard
