import Mathlib.Data.List.Forall2
import Storyboard.Animation.Sequence

/-! # Where a sequence stands

The children of a sequence form a line: those that are over, the one that plays, and those
that have not been reached. What is known of a child depends on its place. This module shows
that calls to a sequence keep a line in order if calls to its children do, whatever it is
that is known.
-/

namespace Storyboard

variable {α W : Type}

/-- Something is known of each element of a list, by its index; the first has index `i`. -/
def Along (known : ℕ → α → Prop) : ℕ → List α → Prop
  | _, [] => True
  | i, a :: rest => known i a ∧ Along known (i + 1) rest

theorem Along.imp {known known' : ℕ → α → Prop} (h : ∀ i a, known i a → known' i a) {i : ℕ}
    {l : List α} (hl : Along known i l) : Along known' i l := by
  induction l generalizing i with
  | nil => trivial
  | cons a l ih => exact ⟨h i a hl.1, ih hl.2⟩

/-- The indices are those from the first one on. -/
theorem Along.imp_of_le {known known' : ℕ → α → Prop} {i : ℕ} {l : List α}
    (h : ∀ j a, i ≤ j → known j a → known' j a) (hl : Along known i l) : Along known' i l := by
  induction l generalizing i with
  | nil => trivial
  | cons a l ih =>
      exact ⟨h i a (Nat.le_refl _) hl.1, ih (fun j b hj => h j b (by omega)) hl.2⟩

theorem Along.iff_getElem? {known : ℕ → α → Prop} {i : ℕ} {l : List α} :
    Along known i l ↔ ∀ j a, l[j]? = some a → known (i + j) a := by
  induction l generalizing i with
  | nil => exact iff_of_true trivial nofun
  | cons b l ih =>
      have htail : Along known (i + 1) l ↔ ∀ j a, l[j]? = some a → known (i + (j + 1)) a := by
        simp only [ih, Nat.add_assoc, Nat.add_comm 1]
      constructor
      · rintro ⟨hb, hl⟩ j a ha
        cases j with
        | zero => exact Option.some.inj ha ▸ hb
        | succ j => exact htail.mp hl j a ha
      · exact fun h => ⟨h 0 b rfl, htail.mpr fun j a ha => h (j + 1) a ha⟩

theorem Along.of_getElem? {known : ℕ → α → Prop} {l : List α} (h : Along known 0 l) {i : ℕ} {a : α}
    (ha : l[i]? = some a) : known i a := by
  simpa only [Nat.zero_add] using Along.iff_getElem?.mp h i a ha

theorem Along.ofForall {known : ℕ → α → Prop} (h : ∀ i a, known i a) (i : ℕ) (l : List α) :
    Along known i l :=
  Along.iff_getElem?.mpr fun _ _ _ => h _ _

/-- Elements that are all known to be those of another list. -/
theorem Along.eq_of_length {l₀ l : List α} (h : Along (fun i a => l₀[i]? = some a) 0 l)
    (hlength : l.length = l₀.length) : l = l₀ := by
  refine List.ext_getElem hlength fun i hi hi₀ => ?_
  have hget := h.of_getElem? (List.getElem?_eq_getElem hi)
  rw [List.getElem?_eq_getElem hi₀] at hget
  exact (Option.some.inj hget).symm

/-- Elements that are each related to the one of another list. -/
theorem forall₂_of_along {β : Type} {R : α → β → Prop} {l₀ : List α} {l : List β}
    (h : Along (fun i b => ∃ a, l₀[i]? = some a ∧ R a b) 0 l) (hlength : l.length = l₀.length) :
    List.Forall₂ R l₀ l := by
  apply List.forall₂_iff_get.mpr
  refine ⟨hlength.symm, fun i hi₀ hi => ?_⟩
  obtain ⟨a, ha, hR⟩ := h.of_getElem? (List.getElem?_eq_getElem hi)
  rw [List.getElem?_eq_getElem hi₀] at ha
  simpa [Option.some.inj ha] using hR

theorem Along.and {known known' : ℕ → α → Prop} {i : ℕ} {l : List α} (h : Along known i l)
    (h' : Along known' i l) : Along (fun i a => known i a ∧ known' i a) i l := by
  induction l generalizing i with
  | nil => trivial
  | cons a l ih => exact ⟨⟨h.1, h'.1⟩, ih h.2 h'.2⟩

/-- Elements are changed one after another, and keep a property of the world. -/
theorem Along.visitAll {known known' : ℕ → α → Prop} {kept : W → Prop} {f : α → W → α × W}
    (h : ∀ i a w, known i a → kept w → known' i (f a w).1 ∧ kept (f a w).2) {i : ℕ} {l : List α}
    (hl : Along known i l) {w : W} (hw : kept w) :
    Along known' i (visitAll f l w).1 ∧ kept (visitAll f l w).2 := by
  induction l generalizing i w with
  | nil => exact ⟨trivial, hw⟩
  | cons a l ih =>
      obtain ⟨ha, hw'⟩ := h i a w hl.1 hw
      obtain ⟨hrest, hw''⟩ := ih hl.2 hw'
      exact ⟨⟨ha, hrest⟩, hw''⟩

/-- Elements that a second change leaves as they are. -/
theorem visitAll_of_fixed {known : ℕ → α → Prop} {f : α → W → α × W}
    (h : ∀ i a, known i a → ∀ w w', f (f a w).1 w' = ((f a w).1, w')) {i : ℕ} {l : List α}
    (hl : Along known i l) (w w' : W) :
    visitAll f (visitAll f l w).1 w' = ((visitAll f l w).1, w') := by
  induction l generalizing i w with
  | nil => rfl
  | cons a l ih =>
      simp only [visitAll]
      rw [h i a hl.1, ih hl.2]

theorem Along.visitAt {known : ℕ → α → Prop} {f : α → W → α × W}
    (h : ∀ i a w, known i a → known i (f a w).1) {i : ℕ} {l : List α} (hl : Along known i l)
    (k : ℕ) (w : W) : Along known i (visitAt f k l w).1 := by
  induction l generalizing i k with
  | nil => cases k <;> trivial
  | cons a l ih =>
      cases k with
      | zero => exact ⟨h i a w hl.1, hl.2⟩
      | succ k => exact ⟨hl.1, ih hl.2 k⟩

theorem length_visitAll (f : α → W → α × W) (l : List α) (w : W) :
    (visitAll f l w).1.length = l.length := by
  induction l generalizing w with
  | nil => rfl
  | cons a l ih => exact congrArg (· + 1) (ih _)

theorem length_visitAt (f : α → W → α × W) (k : ℕ) (l : List α) (w : W) :
    (visitAt f k l w).1.length = l.length := by
  induction l generalizing k w with
  | nil => cases k <;> rfl
  | cons a l ih =>
      cases k with
      | zero => rfl
      | succ k => exact congrArg (· + 1) (ih k w)

/-- The children from index `i` on, of which `k` are over: what is known of these, of the
child that plays, of those behind it, and of the world if there is none that plays. -/
inductive Line (past fresh : ℕ → α → Prop) (here : ℕ → α → W → Prop) (ended : ℕ → W → Prop) :
    ℕ → ℕ → List α → W → Prop
  | ended {i : ℕ} {w : W} : ended i w → Line past fresh here ended i 0 [] w
  | here {i : ℕ} {a : α} {rest : List α} {w : W} :
      here i a w → Along fresh (i + 1) rest → Line past fresh here ended i 0 (a :: rest) w
  | past {i k : ℕ} {a : α} {rest : List α} {w : W} :
      past i a → Line past fresh here ended (i + 1) k rest w →
      Line past fresh here ended i (k + 1) (a :: rest) w

namespace Line

variable {past fresh : ℕ → α → Prop} {here here' : ℕ → α → W → Prop} {ended ended' : ℕ → W → Prop}
  {i k : ℕ} {l : List α} {w : W}

theorem le_length (h : Line past fresh here ended i k l w) : k ≤ l.length := by
  induction h with
  | ended _ => exact Nat.zero_le _
  | here _ _ => exact Nat.zero_le _
  | past _ _ ih => exact Nat.succ_le_succ ih

/-- A line has come to its end, or one of its children plays. -/
theorem cases_drop (h : Line past fresh here ended i k l w) :
    (k = l.length ∧ l.drop k = [] ∧ ended (i + k) w) ∨
      ∃ a rest, k < l.length ∧ l.drop k = a :: rest ∧ Along past i (l.take k) ∧
        here (i + k) a w ∧ Along fresh (i + k + 1) rest := by
  induction h with
  | ended hw => exact .inl ⟨rfl, rfl, hw⟩
  | here ha hrest => exact .inr ⟨_, _, Nat.zero_lt_succ _, rfl, trivial, ha, hrest⟩
  | @past i k a rest w ha _ ih =>
      rw [show i + 1 + k = i + (k + 1) by omega] at ih
      rcases ih with ⟨hk, hdrop, hw⟩ | ⟨b, tail, hk, hdrop, hpast, hb, htail⟩
      · exact .inl ⟨congrArg (· + 1) hk, hdrop, hw⟩
      · exact .inr ⟨b, tail, Nat.succ_lt_succ hk, hdrop, ⟨ha, hpast⟩, hb, htail⟩

theorem here_of_getElem? {a : α} (h : Line past fresh here ended i k l w)
    (ha : l[k]? = some a) : here (i + k) a w := by
  rcases h.cases_drop with ⟨hk, -, -⟩ | ⟨b, rest, -, hdrop, -, hb, -⟩
  · simp [hk] at ha
  · have hb' : l[k]? = some b := by simpa using congrArg List.head? hdrop
    obtain rfl := Option.some.inj (ha.symm.trans hb')
    exact hb

theorem fresh_of_getElem? {a : α} {j : ℕ} (h : Line past fresh here ended i k l w)
    (hlt : k < j) (ha : l[j]? = some a) : fresh (i + j) a := by
  obtain ⟨n, rfl⟩ : ∃ n, j = k + 1 + n := ⟨j - (k + 1), by omega⟩
  rcases h.cases_drop with ⟨hk, -, -⟩ | ⟨b, rest, -, hdrop, -, -, hrest⟩
  · rw [List.getElem?_eq_none (by omega)] at ha
    cases ha
  · have htail : l.drop (k + 1) = rest := by simpa using congrArg List.tail hdrop
    have ha' : rest[n]? = some a := by rw [← htail, List.getElem?_drop, ha]
    simpa [Nat.add_assoc] using Along.iff_getElem?.mp hrest n a ha'

theorem ended_of_length (h : Line past fresh here ended i l.length l w) :
    ended (i + l.length) w := by
  rcases h.cases_drop with ⟨-, -, hw⟩ | ⟨a, rest, hk, -⟩
  · exact hw
  · exact absurd hk (Nat.lt_irrefl _)

/-- At the end of a line nothing but the world matters. -/
theorem of_length {w' : W} (h : Line past fresh here ended i l.length l w)
    (hover : ∀ i, ended i w → ended' i w') : Line past fresh here' ended' i l.length l w' := by
  -- the cursor has to be a variable for the induction
  generalize hk : l.length = k at h
  induction h with
  | ended hw => exact .ended (hover _ hw)
  | here _ _ => cases hk
  | past ha _ ih => exact .past ha (ih hover (Nat.succ.inj hk))

/-- Children that are over are put in front of a line. -/
theorem append {m : ℕ} {ys : List α} (hpast : Along past i l)
    (h : Line past fresh here ended (i + l.length) m ys w) :
    Line past fresh here ended i (l.length + m) (l ++ ys) w := by
  induction l generalizing i with
  | nil => simpa using h
  | cons a l ih =>
      rw [List.length_cons, show l.length + 1 + m = l.length + m + 1 by omega]
      refine .past hpast.1 (ih hpast.2 ?_)
      rwa [List.length_cons, show i + (l.length + 1) = i + 1 + l.length by omega] at h

/-- What is known wherever a child stands is known all along the line. -/
theorem along {known : ℕ → α → Prop} (h : Line past fresh here ended i k l w)
    (hpast : ∀ i a, past i a → known i a) (hfresh : ∀ i a, fresh i a → known i a)
    (hhere : ∀ i a w, here i a w → known i a) : Along known i l := by
  induction h with
  | ended _ => trivial
  | here ha hrest => exact ⟨hhere _ _ _ ha, hrest.imp hfresh⟩
  | past ha _ ih => exact ⟨hpast _ _ ha, ih⟩

/-- The world changes around a line, or another one takes its place. -/
theorem change {V : Type} {v : V} {here' : ℕ → α → V → Prop} {ended' : ℕ → V → Prop}
    (h : Line past fresh here ended i k l w) (hhere : ∀ i a, here i a w → here' i a v)
    (hover : ∀ i, ended i w → ended' i v) : Line past fresh here' ended' i k l v := by
  induction h with
  | ended hw => exact .ended (hover _ hw)
  | here ha hrest => exact .here (hhere _ _ ha) hrest
  | past ha _ ih => exact .past ha (ih hhere hover)

/-- The child that plays is called. -/
theorem visitAt {f : α → W → α × W} (h : Line past fresh here ended i k l w)
    (hhere : ∀ i a, here i a w → here' i (f a w).1 (f a w).2)
    (hover : ∀ i, ended i w → ended' i w) :
    Line past fresh here' ended' i k (visitAt f k l w).1 (visitAt f k l w).2 := by
  induction h with
  | ended hw => exact .ended (hover _ hw)
  | here ha hrest => exact .here (hhere _ _ ha) hrest
  | past ha _ ih => exact .past ha (ih hhere hover)

/-- The child that plays takes no notice of a call. -/
theorem visitAt_eq_self {V : Type} {f : α → V → α × V} {v : V}
    (h : Line past fresh here ended i k l w) (hhere : ∀ i a, here i a w → f a v = (a, v)) :
    Storyboard.visitAt f k l v = (l, v) := by
  induction h with
  | ended _ => rfl
  | here ha _ => simp only [Storyboard.visitAt, hhere _ _ ha]
  | past _ _ ih => simp only [Storyboard.visitAt, ih hhere]

/-- The child that plays leaves the world as it is. -/
theorem visitAt_world {f : α → W → α × W} (h : Line past fresh here ended i k l w)
    (hhere : ∀ i a, here i a w → (f a w).2 = w) : (Storyboard.visitAt f k l w).2 = w := by
  induction h with
  | ended _ => rfl
  | here ha _ => exact hhere _ _ ha
  | past _ _ ih => exact ih hhere

/-- The child that plays is called, and called again. -/
theorem exists_visitAt_visitAt {V : Type} {f g : α → V → α × V}
    (h : Line past fresh here ended i k l w)
    (hhere : ∀ i a, here i a w → ∃ b, here' i b w ∧ ∀ v, f a v = (b, v) ∧ g b v = (a, v))
    (hover : ∀ i, ended i w → ended' i w) :
    ∃ l', Line past fresh here' ended' i k l' w ∧ l'.length = l.length ∧
      ∀ v, Storyboard.visitAt f k l v = (l', v) ∧ Storyboard.visitAt g k l' v = (l, v) := by
  induction h with
  | ended hw => exact ⟨[], .ended (hover _ hw), rfl, fun _ => ⟨rfl, rfl⟩⟩
  | here ha hrest =>
      obtain ⟨b, hb, hcalled⟩ := hhere _ _ ha
      refine ⟨b :: _, .here hb hrest, rfl, fun v => ⟨?_, ?_⟩⟩
      · simp only [Storyboard.visitAt, (hcalled v).1]
      · simp only [Storyboard.visitAt, (hcalled v).2]
  | past ha _ ih =>
      obtain ⟨l', hl', hlength, hcalled⟩ := ih hhere hover
      refine ⟨_ :: l', .past ha hl', congrArg (· + 1) hlength, fun v => ⟨?_, ?_⟩⟩
      · simp only [Storyboard.visitAt, (hcalled v).1]
      · simp only [Storyboard.visitAt, (hcalled v).2]

/-- A line of which no child has been reached. -/
theorem ofAlong (h : Along fresh i l) (hhere : ∀ a, fresh i a → here i a w) (hover : ended i w) :
    Line past fresh here ended i 0 l w := by
  cases l with
  | nil => exact .ended hover
  | cons a l => exact .here (hhere a h.1) h.2

/-- What is known wherever a child stands is known of a line that has come anywhere. -/
theorem ofKnown {known : ℕ → α → Prop} (h : Along known i l) (hk : k ≤ l.length) :
    Line known known (fun i a _ => known i a) (fun _ _ => True) i k l w := by
  induction k generalizing i l with
  | zero => exact .ofAlong h (fun _ ha => ha) trivial
  | succ k ih =>
      cases l with
      | nil => cases hk
      | cons a l => exact .past h.1 (ih h.2 (Nat.le_of_succ_le_succ hk))

end Line

/-! ## Calls and ticks -/

namespace Sequence

variable [Animation α W] {dt leftover : Float32} {a : α} {rest : List α} {w : W}

theorem advance_of_not_finished (h : (Animation.update dt a w).1.isFinished = false) :
    advance dt a rest w =
      ⟨.running, (Animation.update dt a w).2.1 :: rest, 0, (Animation.update dt a w).2.2⟩ := by
  unfold advance
  generalize Animation.update dt a w = r at *
  obtain ⟨tick, a', w'⟩ := r
  cases tick with
  | idle => rfl
  | running => rfl
  | finished leftover => cases h

theorem advance_nil (h : (Animation.update dt a w).1 = .finished leftover) :
    advance dt a [] w =
      ⟨.finished leftover, [(Animation.update dt a w).2.1], 1, (Animation.update dt a w).2.2⟩ := by
  unfold advance
  generalize Animation.update dt a w = r at *
  obtain ⟨tick, a', w'⟩ := r
  cases h
  rfl

theorem advance_cons {next : α} (h : (Animation.update dt a w).1 = .finished leftover) :
    advance dt a (next :: rest) w =
      let (next, w') := Animation.start next (Animation.update dt a w).2.2
      let tail := advance leftover next rest w'
      { tail with children := (Animation.update dt a w).2.1 :: tail.children
                  passed := tail.passed + 1 } := by
  rw [advance.eq_def]
  dsimp only
  generalize Animation.update dt a w = r at *
  obtain ⟨tick, a', w'⟩ := r
  cases h
  rfl

theorem start_eq (s : Sequence α) (w : W) :
    Animation.start s w =
      ({ s with children := (visitAt Animation.start s.cursor s.children w).1, running := true },
        (visitAt Animation.start s.cursor s.children w).2) := rfl

theorem stop_eq (s : Sequence α) (w : W) :
    Animation.stop s w =
      ({ s with children := (visitAt Animation.stop s.cursor s.children w).1, running := false },
        (visitAt Animation.stop s.cursor s.children w).2) := rfl

theorem update_of_halted {s : Sequence α} (hrunning : s.running = false) (dt : Float32) (w : W) :
    Animation.update dt s w = (.idle, s, w) :=
  if_neg (by rw [hrunning]; nofun)

theorem update_of_complete {s : Sequence α} (hrunning : s.running = true)
    (hcursor : s.cursor = s.length) :
    s.update dt w = (.finished dt, { s with running := false }, w) := by
  have hdrop : s.children.drop s.cursor = [] := List.drop_eq_nil_of_le (Nat.le_of_eq hcursor.symm)
  unfold update
  simp only [hrunning, hdrop, if_true]

theorem exists_drop_eq {s : Sequence α} (hcursor : s.cursor < s.length) :
    ∃ a rest, s.children.drop s.cursor = a :: rest := by
  refine List.exists_cons_of_length_pos ?_
  rw [List.length_drop]
  exact Nat.sub_pos_of_lt hcursor

theorem length_of_drop {s : Sequence α} (hcursor : s.cursor < s.length)
    (hdrop : s.children.drop s.cursor = a :: rest) : s.length = s.cursor + (rest.length + 1) := by
  have hlength := congrArg List.length hdrop
  rw [List.length_drop, List.length_cons] at hlength
  change s.cursor < s.children.length at hcursor
  change s.children.length = _
  omega

theorem update_of_drop {s : Sequence α} (hrunning : s.running = true)
    (hdrop : s.children.drop s.cursor = a :: rest) :
    s.update dt w =
      let step := advance dt a rest w
      (step.tick,
        ⟨s.children.take s.cursor ++ step.children, s.cursor + step.passed,
          !step.tick.isFinished⟩,
        step.world) := by
  unfold update
  simp only [hrunning, hdrop, if_true]

end Sequence

/-- What is known before and after the ticks of single children. `ready` is what a child has
to be given a tick, and `arrive` what is left to the next one. -/
structure Relay [Animation α W] (past fresh : ℕ → α → Prop) (here : ℕ → α → W → Prop)
    (ended : ℕ → W → Prop) (ready : ℕ → Float32 → α → W → Prop)
    (arrive : ℕ → Float32 → W → Prop) : Prop where
  finish : ∀ {i dt a w leftover}, ready i dt a w →
    (Animation.update dt a w).1 = .finished leftover →
    past i (Animation.update dt a w).2.1 ∧ arrive (i + 1) leftover (Animation.update dt a w).2.2
  go : ∀ {i dt a w}, ready i dt a w → (Animation.update dt a w).1.isFinished = false →
    here i (Animation.update dt a w).2.1 (Animation.update dt a w).2.2
  start : ∀ {i dt a w}, fresh i a → arrive i dt w →
    ready i dt (Animation.start a w).1 (Animation.start a w).2
  ended : ∀ {i dt w}, arrive i dt w → ended i w

namespace Relay

variable [Animation α W] {past fresh : ℕ → α → Prop} {here here' : ℕ → α → W → Prop}
  {ended ended' : ℕ → W → Prop} {ready : ℕ → Float32 → α → W → Prop}
  {arrive : ℕ → Float32 → W → Prop}

/-- How a tick may end: with all children over, or with one of them still at play. -/
def Ends (arrive : ℕ → Float32 → W → Prop) (i passed length : ℕ) (tick : Tick) (w : W) : Prop :=
  (∃ leftover, tick = .finished leftover ∧ passed = length ∧ arrive (i + length) leftover w) ∨
    (tick = .running ∧ passed < length)

/-- A tick passes through any number of children. -/
theorem advance (h : Relay past fresh here ended ready arrive) {i : ℕ} {dt : Float32} {a : α}
    {rest : List α} {w : W} (hready : ready i dt a w) (hfresh : Along fresh (i + 1) rest) :
    let step := Sequence.advance dt a rest w
    Line past fresh here ended i step.passed step.children step.world ∧
      step.children.length = rest.length + 1 ∧
      Ends arrive i step.passed (rest.length + 1) step.tick step.world := by
  -- the next child is given what is left of the tick, and so the tick has to be general
  induction rest generalizing i dt a w with
  | nil =>
      cases hfinished : (Animation.update dt a w).1 with
      | finished leftover =>
          obtain ⟨hpast, harrive⟩ := h.finish hready hfinished
          rw [Sequence.advance_nil hfinished]
          exact ⟨.past hpast (.ended (h.ended harrive)), rfl, .inl ⟨leftover, rfl, rfl, harrive⟩⟩
      | _ =>
          have hgo : (Animation.update dt a w).1.isFinished = false := by rw [hfinished]; rfl
          rw [Sequence.advance_of_not_finished hgo]
          exact ⟨.here (h.go hready hgo) trivial, rfl, .inr ⟨rfl, Nat.zero_lt_succ _⟩⟩
  | cons next rest ih =>
      cases hfinished : (Animation.update dt a w).1 with
      | finished leftover =>
          obtain ⟨hpast, harrive⟩ := h.finish hready hfinished
          obtain ⟨hline, hlength, hends⟩ := ih (h.start hfresh.1 harrive) hfresh.2
          rw [Sequence.advance_cons hfinished]
          refine ⟨.past hpast hline, congrArg (· + 1) hlength, ?_⟩
          rcases hends with ⟨l, htick, hpassed, hl⟩ | ⟨htick, hpassed⟩
          · refine .inl ⟨l, htick, congrArg (· + 1) hpassed, ?_⟩
            rwa [List.length_cons, Nat.add_comm (rest.length + 1), ← Nat.add_assoc]
          · exact .inr ⟨htick, Nat.succ_lt_succ hpassed⟩
      | _ =>
          have hgo : (Animation.update dt a w).1.isFinished = false := by rw [hfinished]; rfl
          rw [Sequence.advance_of_not_finished hgo]
          exact ⟨.here (h.go hready hgo) hfresh, rfl, .inr ⟨rfl, Nat.zero_lt_succ _⟩⟩

/-- A tick of a running sequence that has not come to its end. -/
theorem update (h : Relay past fresh here ended ready arrive) (dt : Float32) {s : Sequence α}
    {w : W}
    (hline : Line past fresh here' ended' 0 s.cursor s.children w)
    (hready : ∀ i a, here' i a w → ready i dt a w) (hrunning : s.running = true)
    (hcursor : s.cursor < s.length) :
    let result := s.update dt w
    Line past fresh here ended 0 result.2.1.cursor result.2.1.children result.2.2 ∧
      result.2.1.length = s.length ∧ result.2.1.running = !result.1.isFinished ∧
      Ends arrive 0 result.2.1.cursor s.length result.1 result.2.2 := by
  obtain ⟨hend, -⟩ | ⟨a, rest, -, hdrop, hpast, ha, hfresh⟩ := hline.cases_drop
  · exact absurd hend (Nat.ne_of_lt hcursor)
  · have hcut : (s.children.take s.cursor).length = s.cursor :=
      List.length_take_of_le hline.le_length
    have hrest : s.cursor + (rest.length + 1) = s.length :=
      (Sequence.length_of_drop hcursor hdrop).symm
    rw [Nat.zero_add] at ha hfresh
    obtain ⟨hstep, hlength, hends⟩ := h.advance (hready _ a ha) hfresh
    rw [Sequence.update_of_drop hrunning hdrop]
    -- the children before the cursor take no part in the tick
    have hjoined := Line.append hpast
      (by rwa [hcut, Nat.zero_add] : Line past fresh here ended _ _ _ _)
    rw [hcut] at hjoined
    refine ⟨hjoined, ?_, rfl, ?_⟩
    · change (List.take _ _ ++ _).length = _
      rw [List.length_append, hcut, hlength, hrest]
    · rcases hends with ⟨l, htick, hpassed, hl⟩ | ⟨htick, hpassed⟩
      · refine .inl ⟨l, htick, ?_, ?_⟩
        · change s.cursor + _ = _
          rw [hpassed, hrest]
        · rwa [Nat.zero_add, ← hrest]
      · refine .inr ⟨htick, ?_⟩
        change s.cursor + _ < _
        omega

end Relay

/-- What neither a start nor a tick takes from a child stays true of all children of a sequence
in a tick. -/
theorem Along.update [Animation α W] {known : ℕ → α → Prop}
    (hstart : ∀ i a (w : W), known i a → known i (Animation.start a w).1)
    (hupdate : ∀ i a dt (w : W), known i a → known i (Animation.update dt a w).2.1)
    {s : Sequence α} (h : Along known 0 s.children) (hcursor : s.cursor ≤ s.length) (dt : Float32)
    (w : W) : Along known 0 (s.update dt w).2.1.children := by
  have hrelay : Relay known known (fun i a (_ : W) => known i a) (fun _ _ => True)
      (fun i _ a _ => known i a) fun _ _ _ => True := {
    finish hready _ := ⟨hupdate _ _ _ _ hready, trivial⟩
    go hready _ := hupdate _ _ _ _ hready
    start hfresh _ := hstart _ _ _ hfresh
    ended _ := trivial }
  by_cases hrunning : s.running = true
  · rcases Nat.lt_or_eq_of_le hcursor with hlt | hend
    · obtain ⟨hline, -⟩ := hrelay.update dt (Line.ofKnown h hcursor) (fun _ _ h => h) hrunning hlt
      exact hline.along (fun _ _ h => h) (fun _ _ h => h) fun _ _ _ h => h
    · rw [Sequence.update_of_complete hrunning hend]
      exact h
  · unfold Sequence.update
    rw [if_neg hrunning]
    exact h

/-- What no call takes from a child stays true of all children of a sequence. -/
theorem Along.perform [Animation α W] {known : ℕ → α → Prop}
    (hknown : ∀ i a (c : Call) (w : W), known i a → known i (Animation.perform c a w).2.1)
    {s : Sequence α} (h : Along known 0 s.children) (hcursor : s.cursor ≤ s.length) (c : Call)
    (w : W) : Along known 0 (Animation.perform c s w).2.1.children := by
  cases c with
  | start => exact h.visitAt (fun i a w ha => hknown i a .start w ha) s.cursor w
  | update dt =>
      exact h.update (fun i a w ha => hknown i a .start w ha)
        (fun i a dt w ha => hknown i a (.update dt) w ha) hcursor dt w
  | stop => exact h.visitAt (fun i a w ha => hknown i a .stop w ha) s.cursor w
  | reset =>
      have hreset : ∀ i a (w : W), known i a → True → known i (Animation.reset a w).1 ∧ True :=
        fun i a w ha _ => ⟨hknown i a .reset w ha, trivial⟩
      exact (h.visitAll hreset trivial).1

end Storyboard
