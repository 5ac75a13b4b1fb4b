import Storyboard.Proofs.Playback.Coherence
import Storyboard.Proofs.Playback.Rewind

/-! # Causality

Playback knows of a configuring step nothing but its durations and easings. To the steps that it
has not reached it does nothing but reset them. Two timelines whose first steps agree are given the
same calls. If no one takes notice of a reset of the other steps, then until one of the timelines
has passed the first ones, and then the other has as well, they answer alike and their drivers
stand at the same positions. A reset that is noticed makes a difference.
-/

namespace Storyboard

/-! ## Children that are not reached -/

section Lists

variable {α W : Type} (f : α → W → α × W)

theorem visitAll_append (l later : List α) (w : W) :
    visitAll f (l ++ later) w =
      let visited := visitAll f l w
      let visited' := visitAll f later visited.2
      (visited.1 ++ visited'.1, visited'.2) := by
  induction l generalizing w with
  | nil => rfl
  | cons a l ih => simp only [List.cons_append, visitAll, ih]

theorem visitAt_append {k : ℕ} {l : List α} (hk : k < l.length) (later : List α) (w : W) :
    visitAt f k (l ++ later) w = ((visitAt f k l w).1 ++ later, (visitAt f k l w).2) := by
  induction l generalizing k with
  | nil => cases hk
  | cons a l ih =>
      cases k with
      | zero => rfl
      | succ k => simp only [List.cons_append, visitAt, ih (Nat.lt_of_succ_lt_succ hk)]

end Lists

namespace Sequence

variable {α W : Type} [Animation α W]

/-- The sequence with further children behind the others. -/
def extend (s : Sequence α) (later : List α) : Sequence α :=
  { s with children := s.children ++ later }

/-- Further children are reached only when all others are over. -/
theorem advance_append (dt : Float32) (a : α) (rest later : List α) (w : W) :
    let step := advance dt a rest w
    let step' := advance dt a (rest ++ later) w
    (step.tick.isFinished = false → step' = { step with children := step.children ++ later }) ∧
      (step.tick.isFinished = true → rest.length + 1 ≤ step'.passed) := by
  induction rest generalizing dt a w with
  | nil =>
      cases hfinished : (Animation.update dt a w).1 with
      | finished leftover =>
          rw [advance_nil hfinished]
          refine ⟨nofun, fun _ => ?_⟩
          cases later with
          | nil =>
              rw [List.nil_append, advance_nil hfinished]
              exact Nat.le_refl _
          | cons next later =>
              rw [List.nil_append, advance_cons hfinished]
              exact Nat.le_add_left _ _
      | _ =>
          have hgo : (Animation.update dt a w).1.isFinished = false := by rw [hfinished]; rfl
          rw [advance_of_not_finished hgo, advance_of_not_finished hgo]
          exact ⟨fun _ => rfl, nofun⟩
  | cons next rest ih =>
      cases hfinished : (Animation.update dt a w).1 with
      | finished leftover =>
          rw [List.cons_append, advance_cons hfinished, advance_cons hfinished]
          obtain ⟨hgo, hend⟩ := ih leftover (Animation.start next (Animation.update dt a w).2.2).1
            (Animation.start next (Animation.update dt a w).2.2).2
          refine ⟨fun htick => ?_, fun htick => Nat.succ_le_succ (hend htick)⟩
          dsimp only at htick ⊢
          rw [hgo htick]
          rfl
      | _ =>
          have hgo : (Animation.update dt a w).1.isFinished = false := by rw [hfinished]; rfl
          rw [advance_of_not_finished hgo, advance_of_not_finished hgo]
          exact ⟨fun _ => rfl, nofun⟩

theorem update_extend {s : Sequence α} (hcursor : s.cursor < s.length) (later : List α)
    (dt : Float32) (w : W) :
    let result := s.update dt w
    let result' := (s.extend later).update dt w
    (result.1.isFinished = false → result' = (result.1, result.2.1.extend later, result.2.2)) ∧
      (result.1.isFinished = true → s.length ≤ result'.2.1.cursor) := by
  by_cases hrunning : s.running = true
  · obtain ⟨a, rest, hdrop⟩ := exists_drop_eq hcursor
    have hle : s.cursor ≤ s.children.length := Nat.le_of_lt hcursor
    have hdrop' : (s.extend later).children.drop s.cursor = a :: (rest ++ later) := by
      rw [extend, List.drop_append_of_le_length hle, hdrop, List.cons_append]
    obtain ⟨hgo, hend⟩ := advance_append dt a rest later w
    rw [update_of_drop hrunning hdrop, update_of_drop (s := s.extend later) hrunning hdrop']
    refine ⟨fun htick => ?_, fun htick => ?_⟩
    · simp only [hgo htick, extend, List.take_append_of_le_length hle, List.append_assoc]
    · rw [length_of_drop hcursor hdrop]
      exact Nat.add_le_add_left (hend htick) _
  · rw [Bool.not_eq_true] at hrunning
    have hidle : s.update dt w = (.idle, s, w) := update_of_halted hrunning dt w
    have hidle' : (s.extend later).update dt w = (.idle, s.extend later, w) :=
      update_of_halted (s := s.extend later) hrunning dt w
    rw [hidle, hidle']
    exact ⟨fun _ => rfl, nofun⟩

theorem start_extend {s : Sequence α} (hcursor : s.cursor < s.length) (later : List α) (w : W) :
    (s.extend later).start w = ((s.start w).1.extend later, (s.start w).2) := by
  simp only [start, extend, visitAt_append _ hcursor]

theorem stop_extend {s : Sequence α} (hcursor : s.cursor < s.length) (later : List α) (w : W) :
    (s.extend later).stop w = ((s.stop w).1.extend later, (s.stop w).2) := by
  simp only [stop, extend, visitAt_append _ hcursor]

theorem reset_extend (s : Sequence α) (later : List α) (w : W) :
    (s.extend later).reset w =
      let visited := visitAll Animation.reset later (s.reset w).2
      ((s.reset w).1.extend visited.1, visited.2) := by
  simp only [reset, extend, visitAll_append]

end Sequence

/-! ## Groups that are not reached -/

namespace Timeline

variable {H α : Type}

/-- A timeline with further groups behind the others, in place of another script. -/
def extend (t : Timeline H α) (script : Script (Embedded (Stage H) α)) (later : List (Group α)) :
    Timeline H α :=
  { t with script, sequence := t.sequence.extend later }

variable [Animation α (Stage H)]

section Extend

variable {t : Timeline H α} (script : Script (Embedded (Stage H) α)) (later : List (Group α))
  (s : Stage H)

theorem start_extend (hstate : t.state ≠ .completed) (hbelow : t.currentGroup < t.groupCount) :
    (t.extend script later).start s = ((t.start s).1.extend script later, (t.start s).2) := by
  have hstart : Animation.start (t.sequence.extend later) s = _ :=
    Sequence.start_extend hbelow later s
  rw [start_of_not_completed hstate, start_of_not_completed (t := t.extend script later) hstate]
  simp only [extend, hstart]
  rfl

theorem update_extend (h : t.Coherent) (hbelow : t.currentGroup < t.groupCount) (dt : Float32) :
    let result := t.update dt s
    let result' := (t.extend script later).update dt s
    (result.2.1.currentGroup < t.groupCount →
      result' = (result.1, result.2.1.extend script later, result.2.2)) ∧
    (t.groupCount ≤ result.2.1.currentGroup → t.groupCount ≤ result'.2.1.currentGroup) := by
  cases ht : t.state with
  | idle =>
      rw [update_of_idle ht, update_of_idle (t := t.extend script later) ht]
      exact ⟨fun _ => rfl, id⟩
  | completed => exact absurd (h.completed ht) (Nat.ne_of_lt hbelow)
  | running =>
      obtain ⟨hgo, hend⟩ := Sequence.update_extend hbelow later dt s
      obtain ⟨-, -, -, hends⟩ := Sequence.update_of_running (h.running.mp ht) h.within dt s
      rw [update_of_running ht, update_of_running (t := t.extend script later) ht]
      rcases hends with ⟨leftover, htick, hpassed⟩ | ⟨htick, hlt⟩
      · exact ⟨fun hbelow => absurd hpassed (Nat.ne_of_lt hbelow), fun _ => hend (htick ▸ rfl)⟩
      · refine ⟨fun _ => ?_, fun hpassed => absurd hlt (Nat.not_lt_of_le hpassed)⟩
        simp only [extend, hgo (htick ▸ rfl)]

theorem stop_extend (hbelow : t.currentGroup < t.groupCount) :
    (t.extend script later).stop s = ((t.stop s).1.extend script later, (t.stop s).2) := by
  have hstop : Animation.stop (t.sequence.extend later) s = _ :=
    Sequence.stop_extend hbelow later s
  by_cases ht : t.state = .running
  · rw [stop_of_running ht, stop_of_running (t := t.extend script later) ht]
    simp only [extend, hstop]
    rfl
  · rw [stop_of_not_running ht, stop_of_not_running (t := t.extend script later) ht]

theorem reset_extend :
    (t.extend script later).reset s =
      let visited := visitAll Animation.reset later (t.reset s).2
      ((t.reset s).1.extend script visited.1, visited.2) := by
  have hreset : ∀ s : Stage H, Animation.reset (t.sequence.extend later) s = _ :=
    t.sequence.reset_extend later
  simp only [extend, Timeline.reset, hreset]
  rfl

end Extend

/-- What a call does to groups that are not reached. -/
def leave : Call → List (Group α) → Stage H → List (Group α) × Stage H
  | .reset, later, s => visitAll Animation.reset later s
  | _, later, s => (later, s)

/-- Until all of its groups are over a timeline does the same with further ones. -/
theorem perform_extend {t : Timeline H α} (h : t.Coherent) (hbelow : t.currentGroup < t.groupCount)
    (script : Script (Embedded (Stage H) α)) (later : List (Group α)) (c : Call) (s : Stage H) :
    let result := Animation.perform c t s
    let result' := Animation.perform c (t.extend script later) s
    (result.2.1.currentGroup < t.groupCount →
      result' = (result.1, result.2.1.extend script (leave c later result.2.2).1,
        (leave c later result.2.2).2)) ∧
    (t.groupCount ≤ result.2.1.currentGroup → t.groupCount ≤ result'.2.1.currentGroup) := by
  have hstate : t.state ≠ .completed :=
    fun hcompleted => Nat.ne_of_lt hbelow (h.completed hcompleted)
  cases c with
  | start =>
      have hstart : Animation.perform .start (t.extend script later) s = (none, _) :=
        congrArg (none, ·) (start_extend script later s hstate hbelow)
      dsimp only
      rw [hstart]
      exact ⟨fun _ => rfl, id⟩
  | update dt =>
      obtain ⟨hgo, hend⟩ := update_extend script later s h hbelow dt
      refine ⟨fun hlt => ?_, hend⟩
      change (some ((t.extend script later).update dt s).1,
        ((t.extend script later).update dt s).2) = _
      rw [hgo hlt]
      rfl
  | stop =>
      have hstop : Animation.perform .stop (t.extend script later) s = (none, _) :=
        congrArg (none, ·) (stop_extend script later s hbelow)
      dsimp only
      rw [hstop]
      exact ⟨fun _ => rfl, id⟩
  | reset =>
      have hreset : Animation.perform .reset (t.extend script later) s = (none, _) :=
        congrArg (none, ·) (reset_extend script later s)
      dsimp only
      rw [hreset]
      exact ⟨fun _ => rfl, id⟩

end Timeline

/-! ## Embedded animations that are not reached -/

variable {H α : Type} [Animation α (Stage H)] {same : Stage H → Stage H → Prop}
  {own own' : PropertyMap Driver}

/-- The animation can be reset, and reset again, without anyone noticing. -/
def Unnoticed (same : Stage H → Stage H → Prop) (a : α) : Prop :=
  ∃ quiet : α → Prop, quiet a ∧ ∀ {b s s'}, quiet b → same s s' →
    quiet (Animation.reset b s).1 ∧ same (Animation.reset b s).2 s'

/-- A group whose animation can be reset unnoticed, and moves no driver of the timeline. -/
def Group.Quiet (same : Stage H → Stage H → Prop) (own : PropertyMap Driver) (g : Group α) : Prop :=
  ∀ a, g = .embed a → Unnoticed same a ∧ Detached own H a

theorem Agree.swap {s s' : Stage H} (h : Agree same own own' s s') :
    Agree (fun s' s => same s s') own' own s' s :=
  ⟨h.has', h.has, fun p => (h.get p).symm, h.same⟩

theorem Group.Quiet.reset {g : Group α} (hg : g.Quiet same own) {s s' : Stage H}
    (hs : Agree same own own' s s') :
    (Animation.reset g s).1.Quiet same own ∧ Agree same own own' (Animation.reset g s).2 s' := by
  cases g with
  | advance moves =>
      have hreset : Animation.reset (advance moves : Group α) s =
          (advance (moves.reset s).1, (moves.reset s).2) := rfl
      rw [hreset, Parallel.reset_eq_map]
      exact ⟨nofun, hs⟩
  | embed a =>
      have hreset : Animation.reset (embed a) s =
          (embed (Animation.reset a s).1, (Animation.reset a s).2) := rfl
      obtain ⟨⟨quiet, ha, hquiet⟩, hdetached⟩ := hg a rfl
      obtain ⟨ha', hsame⟩ := hquiet ha hs.same
      rw [hreset]
      refine ⟨fun b hb => ?_, hs.keeps (hdetached.keeps .reset s) (fun p hp => ⟨hp, rfl⟩) hsame⟩
      cases hb
      exact ⟨⟨quiet, ha', hquiet⟩, hdetached.call .reset s⟩

/-- What is not reached is at most reset. -/
theorem Timeline.quiet_leave {later : List (Group α)} {s s' : Stage H}
    (hs : Agree same own own' s s') (hlater : ∀ g ∈ later, g.Quiet same own) (c : Call) :
    (∀ g ∈ (leave c later s).1, g.Quiet same own) ∧ Agree same own own' (leave c later s).2 s' := by
  cases c with
  | reset =>
      change (∀ g ∈ (visitAll Animation.reset later s).1, _) ∧
        Agree _ _ _ (visitAll Animation.reset later s).2 s'
      induction later generalizing s with
      | nil => exact ⟨nofun, hs⟩
      | cons g later ih =>
          obtain ⟨hg, hrest⟩ := List.forall_mem_cons.mp hlater
          obtain ⟨hg', hs'⟩ := hg.reset hs
          obtain ⟨hrest', hs''⟩ := ih hs' hrest
          exact ⟨List.forall_mem_cons.mpr ⟨hg', hrest'⟩, hs''⟩
  | _ => exact ⟨hlater, hs⟩

namespace Timeline

/-! ## Two timelines that begin in the same way -/

/-- Two timelines whose first `m` groups match and have come equally far, but not to their end. -/
inductive Abreast (same : Stage H → Stage H → Prop) (own own' : PropertyMap Driver) (m : ℕ) :
    Timeline H α → Stage H → Timeline H α → Stage H → Prop
  | mk {head head' : Timeline H α} {later later' : List (Group α)} {s s' : Stage H}
      (script script' : Script (Embedded (Stage H) α))
      (coherent : head.Coherent) (coherent' : head'.Coherent)
      (count : head.groupCount = m) (count' : head'.groupCount = m) (below : head.currentGroup < m)
      (heads : head.Matches (Group.Twins same own own') own own' head')
      (quiet : ∀ g ∈ later, g.Quiet same own)
      (quiet' : ∀ g ∈ later', g.Quiet (fun s' s => same s s') own')
      (stages : Agree same own own' s s') :
      Abreast same own own' m (head.extend script later) s (head'.extend script' later') s'

variable {m : ℕ} {t t' : Timeline H α} {s s' : Stage H}

/-- A call leads on both sides to the same, or past the groups that match. -/
theorem Abreast.perform (hown : Function.Injective own.get) (hown' : Function.Injective own'.get)
    (hblind : Blind same own own') (h : Abreast same own own' m t s t' s') (c : Call) :
    let result := Animation.perform c t s
    let result' := Animation.perform c t' s'
    (result.1 = result'.1 ∧
      Abreast same own own' m result.2.1 result.2.2 result'.2.1 result'.2.2) ∨
    (m ≤ result.2.1.currentGroup ∧ m ≤ result'.2.1.currentGroup) := by
  obtain @⟨head, head', later, later', s, s', script, script', coherent, coherent', count, count',
    below, heads, quiet, quiet', stages⟩ := h
  have hgroup : Lockstep (Group.Twins same own own' : Group α → Group α → Prop)
      (Agree same own own') := lockstep_group hown hown' hblind
  have hlockstep := hgroup.timeline fun hs => hs.lowered hown hown' hblind
  obtain ⟨hanswer, heads', stages'⟩ := hlockstep.perform c heads stages
  have hcursor : head.currentGroup = head'.currentGroup := heads.sequence.cursor
  have hcursor' : (Animation.perform c head s).2.1.currentGroup =
      (Animation.perform c head' s').2.1.currentGroup := heads'.sequence.cursor
  obtain ⟨hgo, hpassed⟩ := perform_extend coherent (count ▸ below) script later c s
  obtain ⟨hgo', hpassed'⟩ :=
    perform_extend coherent' (count' ▸ hcursor ▸ below) script' later' c s'
  dsimp only
  rcases Nat.lt_or_ge (Animation.perform c head s).2.1.currentGroup m with hlt | hge
  · rw [hgo (count ▸ hlt), hgo' (count' ▸ hcursor' ▸ hlt)]
    obtain ⟨hquiet, hstage⟩ := quiet_leave stages' quiet c
    obtain ⟨hquiet', hstage'⟩ := quiet_leave hstage.swap quiet' c
    exact .inl ⟨hanswer, .mk script script' (coherent.perform c s) (coherent'.perform c s')
      ((coherent.groupCount_perform c s).trans count)
      ((coherent'.groupCount_perform c s').trans count') hlt heads' hquiet hquiet' hstage'.swap⟩
  · exact .inr ⟨count ▸ hpassed (count ▸ hge), count' ▸ hpassed' (count' ▸ hcursor' ▸ hge)⟩

theorem Abreast.looks (h : Abreast same own own' m t s t' s') :
    (∀ p, s.1.get (t.drivers.get p) = s'.1.get (t'.drivers.get p)) ∧
      t.currentGroup = t'.currentGroup ∧ t.state = t'.state := by
  obtain @⟨head, head', later, later', s, s', script, script', coherent, coherent', count, count',
    below, heads, quiet, quiet', stages⟩ := h
  refine ⟨fun p => ?_, heads.sequence.cursor, heads.state⟩
  change s.1.get (head.drivers.get p) = s'.1.get (head'.drivers.get p)
  rw [heads.drivers, heads.drivers']
  exact stages.get p

/-- What can be seen of a timeline after a call, apart from its style. -/
structure Moment where
  answer : Option Tick
  drivers : Property → Float32
  currentGroup : ℕ
  state : PlaybackState

/-- What can be seen after each of some calls. -/
def moments : List Call → Timeline H α → Stage H → List Moment
  | [], _, _ => []
  | c :: rest, t, s =>
      let (answer, t, s) := Animation.perform c t s
      ⟨answer, fun p => s.1.get (t.drivers.get p), t.currentGroup, t.state⟩ :: moments rest t s

theorem Abreast.moments_eq (hown : Function.Injective own.get)
    (hown' : Function.Injective own'.get) (hblind : Blind same own own')
    (h : Abreast same own own' m t s t' s') (calls : List Call)
    (hbelow : (∀ v ∈ moments calls t s, v.currentGroup < m) ∨
      ∀ v ∈ moments calls t' s', v.currentGroup < m) :
    moments calls t s = moments calls t' s' := by
  induction calls generalizing t t' s s' with
  | nil => rfl
  | cons c rest ih =>
      simp only [moments, List.forall_mem_cons] at hbelow ⊢
      rcases h.perform hown hown' hblind c with ⟨hanswer, hnext⟩ | ⟨hpassed, hpassed'⟩
      · have hrest := ih hnext (hbelow.imp And.right And.right)
        obtain ⟨hdrivers, hcursor, hstate⟩ := hnext.looks
        simp only [hanswer, hdrivers, hcursor, hstate, hrest]
      · exact hbelow.elim (fun hlt => absurd hlt.1 (Nat.not_lt_of_le hpassed))
          fun hlt => absurd hlt.1 (Nat.not_lt_of_le hpassed')

end Timeline

/-! ## Steps that agree -/

/-- Playback makes no difference between the steps: they set the same durations and easings,
whatever their targets, or embed the same animation. -/
inductive FlatStep.Agrees {ε : Type} (config config' : Config) : FlatStep ε → FlatStep ε → Prop
  | configure {step step' : StepConfig}
      (timing : ∀ p, step.durationOf config p = step'.durationOf config' p ∧
        step.easingOf p = step'.easingOf p) :
      Agrees config config' (.configure step) (.configure step')
  | embed (e : ε) : Agrees config config' (.embed e) (.embed e)

namespace Script

variable {ε : Type} {script script' : Script ε} {m i : ℕ}

/-- The first `m` steps agree. -/
def AgreeUpTo (script : Script ε) (m : ℕ) (script' : Script ε) : Prop :=
  ∀ i < m, ∃ x y, script.spec.flatten[i]? = some x ∧ script'.spec.flatten[i]? = some y ∧
    x.Agrees script.config script'.config y

theorem AgreeUpTo.le_length (h : script.AgreeUpTo m script') :
    m ≤ script.spec.flatten.length ∧ m ≤ script'.spec.flatten.length := by
  cases m with
  | zero => exact ⟨Nat.zero_le _, Nat.zero_le _⟩
  | succ i =>
      obtain ⟨x, y, hx, hy, -⟩ := h i (Nat.lt_succ_self i)
      exact ⟨(List.getElem?_eq_some_iff.mp hx).1, (List.getElem?_eq_some_iff.mp hy).1⟩

theorem AgreeUpTo.level_eq (h : script.AgreeUpTo m script') (hi : i ≤ m) :
    script.level i = script'.level i := by
  induction i with
  | zero => rw [level_zero, level_zero]
  | succ i ih =>
      obtain ⟨x, y, hx, hy, hagrees⟩ := h i hi
      cases hagrees with
      | configure timing =>
          rw [level_succ_of_configure script hx, level_succ_of_configure script' hy,
            ih (Nat.le_of_succ_le hi)]
      | embed e =>
          rw [level_succ_of_embed script hx, level_succ_of_embed script' hy,
            ih (Nat.le_of_succ_le hi)]

end Script

namespace Timeline

/-! ## Building -/

/-- The group has just been built for a step. -/
inductive Assembled (own : PropertyMap Driver) :
    PlanStep (Embedded (Stage H) α) → Group α → Prop
  | advance (advances : PropertyMap Advance) :
      Assembled own (.advance advances) (.advance (moves own advances))
  | embed (e : Embedded (Stage H) α) (s : Stage H) :
      Assembled own (.embed e) (.embed (e.build s).1)

omit [Animation α (Stage H)] in
theorem assembled_buildGroups {steps rest : List (PlanStep (Embedded (Stage H) α))} {i : ℕ}
    (hrest : steps.drop i = rest) (own : PropertyMap Driver) (s : Stage H) :
    Along (fun i g => ∃ step, steps[i]? = some step ∧ Assembled own step g) i
      (buildGroups own rest s).1 := by
  induction rest generalizing i s with
  | nil => trivial
  | cons step rest ih =>
      obtain ⟨hstep, htail⟩ := List.of_drop_eq_cons hrest
      cases step with
      | advance advances => exact ⟨⟨_, hstep, .advance advances⟩, ih htail s⟩
      | embed e => exact ⟨⟨_, hstep, .embed e s⟩, ih htail (e.build s).2⟩

section Build

variable {script script' : Script (Embedded (Stage H) α)} {s₀ s₀' : Stage H} {m i : ℕ}

theorem length_build (hsecluded : Secluded (build script s₀).1.drivers script.plan.steps) :
    (build script s₀).1.sequence.children.length = script.plan.steps.length :=
  (fresh_buildGroups List.drop_zero hsecluded (rests_addDrivers s₀.1 s₀.2)).2.2

theorem detached_build (hsecluded : Secluded (build script s₀).1.drivers script.plan.steps) {a : α}
    (ha : (build script s₀).1.sequence.children[i]? = some (.embed a)) :
    Detached (build script s₀).1.drivers H a := by
  obtain ⟨hfresh, -, -⟩ :=
    fresh_buildGroups List.drop_zero hsecluded (rests_addDrivers s₀.1 s₀.2)
  obtain ⟨step, -, hcarries⟩ := hfresh.of_getElem? ha
  cases hcarries with
  | embed e detached => exact detached

omit [Animation α (Stage H)] in
theorem assembled_build {g : Group α} (hg : (build script s₀).1.sequence.children[i]? = some g) :
    ∃ step, script.plan.steps[i]? = some step ∧ Assembled (build script s₀).1.drivers step g :=
  (assembled_buildGroups List.drop_zero (build script s₀).1.drivers _).of_getElem? hg

/-- Groups that are built for steps that agree match. -/
theorem twins_build (hagree : script.AgreeUpTo m script') (hi : i < m)
    (hsecluded : Secluded (build script s₀).1.drivers script.plan.steps)
    (hsecluded' : Secluded (build script' s₀').1.drivers script'.plan.steps) {g g' : Group α}
    (hg : (build script s₀).1.sequence.children[i]? = some g)
    (hg' : (build script' s₀').1.sequence.children[i]? = some g')
    (halike : ∀ a b, g = .embed a → g' = .embed b → Alike same a b) :
    g.Twins same (build script s₀).1.drivers (build script' s₀').1.drivers g' := by
  obtain ⟨step, hstep, hassembled⟩ := assembled_build hg
  obtain ⟨step', hstep', hassembled'⟩ := assembled_build hg'
  obtain ⟨x, y, hx, hy, hxy⟩ := hagree i hi
  cases hassembled with
  | advance advances =>
      obtain ⟨config, hconfig, hspec⟩ := script.advance_spec hstep
      cases hassembled' with
      | advance advances' =>
          obtain ⟨config', hconfig', hspec'⟩ := script'.advance_spec hstep'
          cases hx.symm.trans hconfig
          cases hy.symm.trans hconfig'
          cases hxy with
          | configure timing =>
              refine .advance (matches_moves_of_eq fun p => ?_)
              obtain ⟨hindex, hduration, heasing, -⟩ := hspec p
              obtain ⟨hindex', hduration', heasing', -⟩ := hspec' p
              rw [hindex, hindex', hagree.level_eq (Nat.le_of_lt hi), hduration, hduration',
                heasing, heasing']
              exact ⟨rfl, timing p⟩
      | embed e' s' =>
          cases hx.symm.trans hconfig
          cases hy.symm.trans (script'.embed_spec hstep')
          cases hxy
  | embed e s =>
      cases hx.symm.trans (script.embed_spec hstep)
      cases hassembled' with
      | advance advances' =>
          obtain ⟨config', hconfig', -⟩ := script'.advance_spec hstep'
          cases hy.symm.trans hconfig'
          cases hxy
      | embed e' s' =>
          exact .embed (halike _ _ rfl rfl) (detached_build hsecluded hg)
            (detached_build hsecluded' hg')

/-- What the embedded animations of two timelines have to be like: up to some step those of
the same index behave alike, and those behind can be reset unnoticed. -/
structure Comparable (same : Stage H → Stage H → Prop) (m : ℕ) (t t' : Timeline H α) : Prop where
  alike : ∀ i < m, ∀ a b, t.sequence.children[i]? = some (.embed a) →
    t'.sequence.children[i]? = some (.embed b) → Alike same a b
  unnoticed : ∀ i ≥ m, ∀ a, t.sequence.children[i]? = some (.embed a) → Unnoticed same a
  unnoticed' : ∀ i ≥ m, ∀ b, t'.sequence.children[i]? = some (.embed b) →
    Unnoticed (fun s' s => same s s') b

/-- A timeline without the groups from an index on, in place of another script. -/
def upTo (t : Timeline H α) (script : Script (Embedded (Stage H) α)) (m : ℕ) : Timeline H α :=
  { t with script, sequence := .ofList (t.sequence.children.take m) }

omit [Animation α (Stage H)] in
theorem extend_upTo (script script' : Script (Embedded (Stage H) α)) (s : Stage H) (m : ℕ) :
    ((build script s).1.upTo script' m).extend script
      ((build script s).1.sequence.children.drop m) = (build script s).1 := by
  simp only [upTo, extend, Sequence.extend, Sequence.ofList, List.take_append_drop]
  rfl

/-- Groups that are not to be reached. -/
theorem quiet_build (hsecluded : Secluded (build script s₀).1.drivers script.plan.steps)
    (hunnoticed : ∀ i ≥ m, ∀ a, (build script s₀).1.sequence.children[i]? = some (.embed a) →
      Unnoticed same a) :
    ∀ g ∈ (build script s₀).1.sequence.children.drop m,
      g.Quiet same (build script s₀).1.drivers := by
  rintro g hg a rfl
  obtain ⟨i, hi⟩ := List.mem_iff_getElem?.mp hg
  rw [List.getElem?_drop] at hi
  exact ⟨hunnoticed _ (Nat.le_add_right m i) a hi, detached_build hsecluded hi⟩

theorem length_take_build (hsecluded : Secluded (build script s₀).1.drivers script.plan.steps)
    (hm : m ≤ script.spec.flatten.length) :
    ((build script s₀).1.sequence.children.take m).length = m := by
  rw [List.length_take, length_build hsecluded, script.length_steps, Nat.min_eq_left hm]

theorem abreast_build (hagree : script.AgreeUpTo m script') (hm : 0 < m)
    (hsecluded : Secluded (build script s₀).1.drivers script.plan.steps)
    (hsecluded' : Secluded (build script' s₀').1.drivers script'.plan.steps)
    (hcomparable : Comparable same m (build script s₀).1 (build script' s₀').1)
    (hsame : same (build script s₀).2 (build script' s₀').2) :
    Abreast same (build script s₀).1.drivers (build script' s₀').1.drivers m
      (build script s₀).1 (build script s₀).2 (build script' s₀').1 (build script' s₀').2 := by
  have hlength := length_take_build hsecluded hagree.le_length.1
  have hlength' := length_take_build hsecluded' hagree.le_length.2
  have hheads : List.Forall₂
      (Group.Twins same (build script s₀).1.drivers (build script' s₀').1.drivers)
      ((build script s₀).1.sequence.children.take m)
      ((build script' s₀').1.sequence.children.take m) := by
    refine List.forall₂_iff_get.mpr ⟨hlength.trans hlength'.symm, fun i hi hi' => ?_⟩
    have him : i < m := hlength ▸ hi
    have hg := (List.getElem?_take_of_lt him).symm.trans (List.getElem?_eq_getElem hi)
    have hg' := (List.getElem?_take_of_lt him).symm.trans (List.getElem?_eq_getElem hi')
    exact twins_build hagree him hsecluded hsecluded' hg hg' fun a b ha hb =>
      hcomparable.alike i him a b (ha ▸ hg) (hb ▸ hg')
  have hstages : Agree same (build script s₀).1.drivers (build script' s₀').1.drivers
      (build script s₀).2 (build script' s₀').2 :=
    .ofRests (fresh_buildGroups List.drop_zero hsecluded (rests_addDrivers s₀.1 s₀.2)).2.1
      (fresh_buildGroups List.drop_zero hsecluded' (rests_addDrivers s₀'.1 s₀'.2)).2.1 hsame
  -- the heads are put in place of timelines of one script, since that of a timeline is not played
  have habreast : Abreast same (build script s₀).1.drivers (build script' s₀').1.drivers m
      (((build script s₀).1.upTo script m).extend script
        ((build script s₀).1.sequence.children.drop m)) (build script s₀).2
      (((build script' s₀').1.upTo script m).extend script'
        ((build script' s₀').1.sequence.children.drop m)) (build script' s₀').2 :=
    .mk script script' (coherent_ofList rfl rfl) (coherent_ofList rfl rfl) hlength hlength' hm
      ⟨rfl, rfl, rfl, rfl, ⟨hheads, rfl, rfl⟩, rfl⟩ (quiet_build hsecluded hcomparable.unnoticed)
      (quiet_build hsecluded' hcomparable.unnoticed') hstages
  rwa [extend_upTo, extend_upTo] at habreast

end Build

/-- Two timelines whose first `m` steps agree, whatever their targets, their initial values and
angle units, and whatever steps follow, are given the same calls. As long as one of them has not
passed these steps, the other has not either, and after each call they have answered alike, their
drivers stand at the same positions, and they are in the same group and state. Of embedded
animations this asks that they keep off the drivers of the timelines and take no notice of them,
that those of the first `m` steps behave alike, and that a reset of one that follows goes
unnoticed, since a reset of the timeline reaches it before it is played. -/
theorem playback_causal {script script' : Script (Embedded (Stage H) α)} {m : ℕ}
    (hagree : script.AgreeUpTo m script') (s₀ s₀' : Stage H)
    (hsecluded : Secluded (build script s₀).1.drivers script.plan.steps)
    (hsecluded' : Secluded (build script' s₀').1.drivers script'.plan.steps)
    (hblind : Blind same (build script s₀).1.drivers (build script' s₀').1.drivers)
    (hcomparable : Comparable same m (build script s₀).1 (build script' s₀').1)
    (hsame : same (build script s₀).2 (build script' s₀').2) (calls : List Call) :
    let seen := moments calls (build script s₀).1 (build script s₀).2
    let seen' := moments calls (build script' s₀').1 (build script' s₀').2
    ((∀ x ∈ seen, x.currentGroup < m) ↔ ∀ x ∈ seen', x.currentGroup < m) ∧
      ((∀ x ∈ seen, x.currentGroup < m) → seen = seen') := by
  have heq : (∀ x ∈ moments calls (build script s₀).1 (build script s₀).2, x.currentGroup < m) ∨
      (∀ x ∈ moments calls (build script' s₀').1 (build script' s₀').2, x.currentGroup < m) →
      moments calls (build script s₀).1 (build script s₀).2 =
        moments calls (build script' s₀').1 (build script' s₀').2 := by
    intro hbelow
    rcases Nat.eq_zero_or_pos m with rfl | hm
    · -- there is no group below the first one, and so there are no calls
      cases calls with
      | nil => rfl
      | cons c rest =>
          simp only [moments, List.forall_mem_cons, Nat.not_lt_zero, false_and, or_self] at hbelow
    · exact (abreast_build hagree hm hsecluded hsecluded' hcomparable hsame).moments_eq
        (injective_addDrivers s₀.1) (injective_addDrivers s₀'.1) hblind calls hbelow
  dsimp only
  refine ⟨⟨fun hbelow => ?_, fun hbelow => ?_⟩, fun hbelow => heq (.inl hbelow)⟩
  · rwa [← heq (.inl hbelow)]
  · rwa [heq (.inr hbelow)]

/-- Fades to different ends, from different values, with the same wait behind them, and played into
the wait. -/
theorem playback_causal_fades :
    ∃ script script' : Script (Embedded (Stage Unit) Wait),
      script.spec.flatten = [.configure (.set .empty .opacity { target := .value 0 }),
        .embed { build := fun s => ({ duration := 100 }, s) }] ∧
      script'.spec.flatten = [.configure (.set .empty .translateX { target := .value 1 }),
        .embed { build := fun s => ({ duration := 100 }, s) },
        .embed { build := fun s => ({ duration := 200 }, s) }] ∧
      script.AgreeUpTo 2 script' ∧
      moments [.start, .update (ofCount 350), .stop, .start] (build script (.empty, ())).1
          (build script (.empty, ())).2 =
        moments [.start, .update (ofCount 350), .stop, .start] (build script' (.empty, ())).1
          (build script' (.empty, ())).2 := by
  let script : Script (Embedded (Stage Unit) Wait) :=
    ⟨{ steps := [.configure (.set .empty .opacity { target := .value 0 }),
        .embed { build := fun s => ({ duration := 100 }, s) }] }, {}, _, rfl⟩
  let script' : Script (Embedded (Stage Unit) Wait) :=
    ⟨{ steps := [.configure (.set .empty .translateX { target := .value 1 }),
        .embed { build := fun s => ({ duration := 100 }, s) },
        .embed { build := fun s => ({ duration := 200 }, s) }] }, { angleUnit := .radians }, _, rfl⟩
  have hagree : script.AgreeUpTo 2 script' := by
    intro i hi
    obtain rfl | rfl : i = 0 ∨ i = 1 := by omega
    · exact ⟨_, _, rfl, rfl, .configure fun p => by cases p <;> exact ⟨rfl, rfl⟩⟩
    · exact ⟨_, _, rfl, rfl, .embed _⟩
  have hsecluded : Secluded (build script (.empty, ())).1.drivers script.plan.steps := by
    refine secluded_of_flatten fun e he s _ => ?_
    obtain rfl : e = _ := by simpa [script, Spec.flatten, Step.flattenAll, Step.flatten] using he
    exact ⟨fun p hp => ⟨hp, rfl⟩, detached_wait _ _⟩
  have hsecluded' : Secluded (build script' (.empty, ())).1.drivers script'.plan.steps := by
    refine secluded_of_flatten fun e he s _ => ?_
    have he' : e = { build := fun s => ({ duration := 100 }, s) } ∨
        e = { build := fun s => ({ duration := 200 }, s) } := by
      simpa [script', Spec.flatten, Step.flattenAll, Step.flatten] using he
    rcases he' with rfl | rfl <;> exact ⟨fun p hp => ⟨hp, rfl⟩, detached_wait _ _⟩
  have hcomparable : Comparable (fun _ _ : Stage Unit => True) 2 (build script (.empty, ())).1
      (build script' (.empty, ())).1 := by
    have hunnoticed : ∀ a : Wait, Unnoticed (fun _ _ : Stage Unit => True) a :=
      fun _ => ⟨fun _ => True, trivial, fun _ _ => ⟨trivial, trivial⟩⟩
    refine ⟨fun i hi a b ha hb => ?_, fun _ _ a _ => hunnoticed a, fun _ _ a _ => hunnoticed a⟩
    obtain rfl | rfl : i = 0 ∨ i = 1 := by omega
    · cases ha
    · cases ha
      cases hb
      exact ⟨Eq, lockstep_wait, rfl⟩
  obtain ⟨-, hcausal⟩ := playback_causal hagree (.empty, ()) (.empty, ()) hsecluded hsecluded'
    ⟨fun _ _ => trivial, fun _ _ => trivial⟩ hcomparable trivial
    [.start, .update (ofCount 350), .stop, .start]
  exact ⟨script, script', rfl, rfl, hagree, hcausal (by decide +kernel)⟩

/-- What is embedded may share a flag that the host keeps: a gate is over as soon as the flag is
set, and a switch sets it when it is reset. -/
inductive Signal
  | gate
  | switch

instance : Animation Signal (Stage Bool) where
  start a s := (a, s)
  update dt a s :=
    match a with
    | .gate => (if s.2 then .finished dt else .running, .gate, s)
    | .switch => (.running, .switch, s)
  stop a s := (a, s)
  reset a s :=
    match a with
    | .gate => (.gate, s)
    | .switch => (.switch, s.1, true)

/-- Behind the same gate there is a switch in one timeline, and another gate in the other one. A
reset reaches the switch before it is played, and opens the gate in that timeline alone. -/
theorem reset_opens_gate :
    ∃ script script' : Script (Embedded (Stage Bool) Signal),
      script.spec.flatten = [.embed { build := fun s => (.gate, s) },
        .embed { build := fun s => (.switch, s) }] ∧
      script'.spec.flatten = [.embed { build := fun s => (.gate, s) },
        .embed { build := fun s => (.gate, s) }] ∧
      script.AgreeUpTo 1 script' ∧
      (build script (.empty, false)).2 = (build script' (.empty, false)).2 ∧
      let calls : List Call := [.reset, .start, .update (ofCount 16)]
      let seen := moments calls (build script (.empty, false)).1 (build script (.empty, false)).2
      let seen' :=
        moments calls (build script' (.empty, false)).1 (build script' (.empty, false)).2
      seen.map (·.currentGroup) = [0, 0, 1] ∧ seen'.map (·.currentGroup) = [0, 0, 0] ∧
        ¬ ((∀ x ∈ seen, x.currentGroup < 1) ↔ ∀ x ∈ seen', x.currentGroup < 1) := by
  let script : Script (Embedded (Stage Bool) Signal) :=
    ⟨{ steps := [.embed { build := fun s => (.gate, s) },
        .embed { build := fun s => (.switch, s) }] }, {}, _, rfl⟩
  let script' : Script (Embedded (Stage Bool) Signal) :=
    ⟨{ steps := [.embed { build := fun s => (.gate, s) },
        .embed { build := fun s => (.gate, s) }] }, {}, _, rfl⟩
  have hagree : script.AgreeUpTo 1 script' := by
    intro i hi
    obtain rfl : i = 0 := by omega
    exact ⟨_, _, rfl, rfl, .embed _⟩
  refine ⟨script, script', rfl, rfl, hagree, rfl, ?_⟩
  intro calls seen seen'
  have hgroups : seen.map (·.currentGroup) = [0, 0, 1] := by decide +kernel
  have hgroups' : seen'.map (·.currentGroup) = [0, 0, 0] := by decide +kernel
  refine ⟨hgroups, hgroups', fun hiff => ?_⟩
  have hbelow : ∀ (l : List Moment), (∀ x ∈ l, x.currentGroup < 1) ↔
      ∀ group ∈ l.map (·.currentGroup), group < 1 := fun l => by rw [List.forall_mem_map]
  rw [hbelow, hbelow, hgroups, hgroups'] at hiff
  exact absurd hiff (by decide)

end Timeline

end Storyboard
