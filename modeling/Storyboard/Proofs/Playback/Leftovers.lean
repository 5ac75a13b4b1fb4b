import Storyboard.Proofs.Playback.Clocks
import Storyboard.Proofs.Playback.Coherence
import Storyboard.Proofs.Playback.Turns

/-! # No time is invented

What a group does not need of a tick is handed to the next one. It is a difference of rounded
numbers, and that may well come out too large. But a group never leaves over more than it was
given, nor less than nothing, since it takes the least of what its moves leave over and of the
tick itself. So the times that are handed on never increase, however many groups a tick passes.
-/

namespace Storyboard

variable {α W : Type}

/-! ## Times that are handed on -/

/-- The child that a tick reached, and the time that it was given. -/
def Event.handed? (e : Event α W) : Option (ℕ × Float32) :=
  match e.call with
  | .update dt => some (e.child, dt)
  | _ => none

/-- The children that ticks reached in some events, and the times that they were given. -/
def handed (events : List (Event α W)) : List (ℕ × Float32) :=
  events.filterMap Event.handed?

/-- A tick of so many milliseconds is handed on from a child to those behind it. -/
structure HandedOn (i : ℕ) (dt : Float32) (given : List (ℕ × Float32)) (answer : Tick) : Prop where
  first : given.head? = some (i, dt)
  /-- One child after another is reached. -/
  children : given.map Prod.fst = List.range' i given.length
  /-- No child is given more than the one before it. -/
  falling : (given.map Prod.snd).Pairwise fun x y => y ≤ x
  within : ∀ x ∈ given.map Prod.snd, 0 ≤ x ∧ x ≤ dt
  /-- No more is left over in the end than any of them was given. -/
  leftover : ∀ l, answer = .finished l → 0 ≤ l ∧ ∀ x ∈ given.map Prod.snd, l ≤ x

theorem HandedOn.mem {i : ℕ} {dt : Float32} {given : List (ℕ × Float32)} {answer : Tick}
    (h : HandedOn i dt given answer) : dt ∈ given.map Prod.snd :=
  List.mem_map_of_mem (List.mem_of_mem_head? h.first)

/-- An animation never leaves over more of a tick than it was given, nor less than nothing. -/
def Frugal (W : Type) [Animation α W] (a : α) : Prop :=
  ∀ (dt leftover : Float32) (w : W), 0 ≤ dt → (Animation.update dt a w).1 = .finished leftover →
    0 ≤ leftover ∧ leftover ≤ dt

/-- Frugal children hand on what they are given. -/
theorem Relayed.handedOn [Animation α W] {l : List α} {i passed : ℕ} {dt : Float32} {a : α} {w : W}
    {events : List (Event α W)} {tick : Tick} (h : Relayed l i dt a w events tick passed)
    (ha : Frugal W a) (hl : ∀ b ∈ l, ∀ w : W, Frugal W (Animation.start b w).1) (hdt : 0 ≤ dt) :
    HandedOn i dt (handed events) tick := by
  have hself : ∀ {x : Float32}, 0 ≤ x → x ≤ x := fun hx => le_refl_number (isNaN_of_le hx).2
  induction h with
  | @stays i dt a w _ _ =>
      refine ⟨rfl, rfl, List.pairwise_singleton _ _, List.forall_mem_singleton.mpr ?_, nofun⟩
      exact ⟨hdt, hself hdt⟩
  | @ends i dt leftover a w _ hfinished =>
      obtain ⟨hnonneg, hle⟩ := ha dt leftover w hdt hfinished
      refine ⟨rfl, rfl, List.pairwise_singleton _ _, List.forall_mem_singleton.mpr ?_, ?_⟩
      · exact ⟨hdt, hself hdt⟩
      · rintro _ ⟨rfl⟩
        exact ⟨hnonneg, List.forall_mem_singleton.mpr hle⟩
  | @passes i passed dt leftover a next w w' events tick hfinished _ hnext _ ih =>
      obtain ⟨hnonneg, hle⟩ := ha dt leftover w hdt hfinished
      have hrest := ih (hl next (List.mem_of_getElem? hnext) w') hnonneg
      -- what the first child is given is at least what it leaves over, and so at least all others
      have hbelow : ∀ x ∈ (handed events).map Prod.snd, x ≤ dt :=
        fun x hx => le_trans_number (hrest.within x hx).2 hle
      refine {
        first := rfl
        children := congrArg (i :: ·) hrest.children
        falling := List.pairwise_cons.mpr ⟨hbelow, hrest.falling⟩
        within := List.forall_mem_cons.mpr ⟨⟨hdt, hself hdt⟩, fun x hx =>
          ⟨(hrest.within x hx).1, hbelow x hx⟩⟩
        leftover := fun l hl => ?_ }
      obtain ⟨hpos, hall⟩ := hrest.leftover l hl
      exact ⟨hpos, List.forall_mem_cons.mpr
        ⟨le_trans_number (hall leftover hrest.mem) hle, hall⟩⟩

/-! ## Groups of moves -/

theorem Lane.zero_le_of_surplus? {lane : Lane Timing} {dt leftover : Float32} (hdt : 0 ≤ dt)
    (h : lane.surplus? dt = some leftover) : 0 ≤ leftover := by
  unfold Lane.surplus? at h
  split at h
  · cases h
  · split at h
    · next hanswer =>
      obtain rfl := Option.some.inj h
      unfold Timing.answer at hanswer
      split at hanswer
      · cases hanswer
      · cases hanswer
        exact hdt
      · split at hanswer
        · cases hanswer
          exact zero_le_maxNumber _
        · cases hanswer
    · cases h

theorem Parallel.surplus_bounds {dt : Float32} (hdt : 0 ≤ dt) (lane : Property → Lane Timing) :
    0 ≤ surplus dt lane ∧ surplus dt lane ≤ dt := by
  constructor
  · rcases surplus_cases dt lane with hall | ⟨p, hp⟩
    · rwa [hall]
    · exact Lane.zero_le_of_surplus? hdt hp
  · exact (least_foldl_minNumber dt _).2 dt List.mem_cons_self (isNaN_of_le hdt).2

variable {H : Type} [Animation α (Stage H)]

theorem Group.Clocked.frugal {g : Group α} (h : g.Clocked) : Frugal (Stage H) g := by
  intro dt leftover s hdt hfinished
  cases h with
  | @moves lane running clocks =>
      cases running with
      | false => cases hfinished
      | true =>
          obtain ⟨running, hupdate, -⟩ := Group.update_moves α lane s dt
          rw [hupdate] at hfinished
          cases running with
          | true => cases hfinished
          | false =>
              cases hfinished
              exact Parallel.surplus_bounds hdt lane

/-! ## Timelines -/

namespace Timeline

/-- Ticks of a timeline of moves do not invent time. In every state that calls lead to, a tick
from 0 on is handed to the group that plays, and what that leaves over to the next one, and so
on: never more than to the group before, and never less than 0. The same holds of what the
timeline itself leaves over when it is completed. No other tick is handed to any group. -/
theorem time_handed_on (script : Script (Embedded (Stage H) α)) (s₀ : Stage H)
    (hscript : script.Configures) {t : Timeline H α} {s : Stage H}
    (h : Reaches (build script s₀).1 (build script s₀).2 t s) {dt : Float32} (hdt : 0 ≤ dt) :
    let given := handed (t.sequence.events (.update dt) s)
    (t.state = .running → t.currentGroup < t.groupCount →
      HandedOn t.currentGroup dt given (t.update dt s).1) ∧
    (¬ (t.state = .running ∧ t.currentGroup < t.groupCount) → given = []) ∧
    ∀ leftover, (t.update dt s).1 = .finished leftover → 0 ≤ leftover ∧ leftover ≤ dt := by
  intro given
  have hcoherent := (coherent_build script s₀).descends h.descends
  have hfrugal : ∀ g ∈ t.sequence.children, ∀ s : Stage H,
      Frugal (Stage H) (Animation.start g s).1 :=
    fun g hg s => ((h.clocked_of_mem hscript hg).start s).frugal
  have hon : t.state = .running → t.currentGroup < t.groupCount →
      HandedOn t.currentGroup dt given (t.update dt s).1 := by
    intro hstate hlt
    obtain ⟨g, passed, hg, hrelayed, -⟩ :=
      Sequence.exists_relayed_update (hcoherent.running.mp hstate) hlt dt s
    rw [update_of_running hstate]
    exact hrelayed.handedOn (h.clocked_of_mem hscript (List.mem_of_getElem? hg)).frugal hfrugal hdt
  refine ⟨hon, fun hstill => ?_, fun leftover hfinished => ?_⟩
  · have hnone : t.sequence.events (.update dt) s = [] := by
      cases hrunning : t.sequence.running with
      | false => exact Sequence.events_update_of_halted hrunning dt s
      | true =>
          refine Sequence.events_update_of_complete hrunning ?_ dt s
          refine Nat.le_antisymm hcoherent.within (Nat.le_of_not_lt fun hlt => ?_)
          exact hstill ⟨hcoherent.running.mpr hrunning, hlt⟩
    change handed _ = []
    rw [hnone]
    rfl
  · cases hstate : t.state with
    | idle =>
        rw [update_of_idle hstate] at hfinished
        cases hfinished
    | completed =>
        rw [update_of_completed hstate] at hfinished
        cases hfinished
        exact ⟨hdt, le_refl_number (isNaN_of_le hdt).2⟩
    | running =>
        rcases Nat.lt_or_eq_of_le hcoherent.within with hlt | hend
        · have hgiven := hon hstate hlt
          obtain ⟨hnonneg, hall⟩ := hgiven.leftover leftover hfinished
          exact ⟨hnonneg, hall dt hgiven.mem⟩
        · rw [update_of_running hstate] at hfinished
          dsimp only at hfinished
          rw [Sequence.update_of_complete (hcoherent.running.mp hstate) hend] at hfinished
          cases hfinished
          exact ⟨hdt, le_refl_number (isNaN_of_le hdt).2⟩

/-- Two fades of 300 milliseconds, of which one tick of 1000 plays what is left after 150. -/
theorem time_handed_on_fades :
    ∃ (script : Script (Embedded (Stage Unit) Wait)) (t : Timeline Unit Wait) (s : Stage Unit),
      script.Configures ∧ Reaches (build script (.empty, ())).1 (build script (.empty, ())).2 t s ∧
      t.state = .running ∧ t.currentGroup = 0 ∧ 0 ≤ ofCount 1000 ∧
      (handed (t.sequence.events (.update (ofCount 1000)) s)).map Prod.fst = [0, 1] ∧
      HandedOn t.currentGroup (ofCount 1000) (handed (t.sequence.events (.update (ofCount 1000)) s))
        (t.update (ofCount 1000) s).1 ∧
      ∃ leftover, (t.update (ofCount 1000) s).1 = .finished leftover ∧
        0 ≤ leftover ∧ leftover ≤ ofCount 1000 := by
  let script : Script (Embedded (Stage Unit) Wait) :=
    ⟨{ steps := [.configure (.set .empty .opacity { target := .value 0 }),
        .nested .none [.configure (.set .empty .opacity { target := .value 1 })]] }, {}, _, rfl⟩
  have hscript : script.Configures := by
    intro step hstep
    obtain rfl | rfl : step = _ ∨ step = _ := by
      simpa [script, Spec.flatten, Step.flattenAll, Step.flatten] using hstep
    · exact ⟨_, rfl⟩
    · exact ⟨_, rfl⟩
  let built := build script (.empty, ())
  let played := (Animation.run [.start, .update (ofCount 150)] built.1 built.2).2
  have hreaches : Reaches built.1 built.2 played.1 played.2 :=
    .call (.update (ofCount 150)) (.call .start .refl)
  have hdt : 0 ≤ ofCount 1000 := by decide +kernel
  have hfinished : (played.1.update (ofCount 1000) played.2).1.leftover?.isSome := by
    decide +kernel
  obtain ⟨leftover, hsome⟩ := Option.isSome_iff_exists.mp hfinished
  rw [Tick.leftover?_eq_some_iff] at hsome
  obtain ⟨hgiven, -, hleftover⟩ := time_handed_on script (.empty, ()) hscript hreaches hdt
  exact ⟨script, played.1, played.2, hscript, hreaches, by decide +kernel, by decide +kernel, hdt,
    by decide +kernel, hgiven (by decide +kernel) (by decide +kernel), leftover, hsome,
    hleftover leftover hsome⟩

end Timeline

end Storyboard
