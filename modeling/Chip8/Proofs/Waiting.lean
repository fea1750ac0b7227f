import Chip8.Proofs.Hearing

/-!
# Waiting for a key

A wait for a key takes the shortest run of reports whose last one ends it, and leaves the others on
the keyboard. The last report alone decides what the wait answers and whether the terminal has been
asked to stop; those before it make no difference. Every answer is a key of the keypad, so that no
machine is ever halted by an answer of a terminal.
-/
namespace Chip8

namespace Terminal

variable {t : Terminal}

/-- A wait comes to an end: a report that ends it is there or still to come. -/
def Answered (t : Terminal) : Prop :=
  ∃ event ∈ t.keyboard.upcoming, event.endsWait t.keymap t.quit = true

/-- A wait passes over the reports `skipped`, ends at the report `event`, and leaves behind what it
has to. -/
structure Takes (t : Terminal) (skipped : List InputEvent) (event : InputEvent) : Prop where
  /-- What it takes stands at the front, and everything else is left. -/
  upcoming : t.keyboard.upcoming = skipped ++ event :: t.waitKey.2.keyboard.upcoming
  passed : ∀ report ∈ skipped, report.endsWait t.keymap t.quit = false
  ends : event.endsWait t.keymap t.quit = true
  ofKey : ∀ key, event.key? t.keymap = some key → t.waitKey.1.toNat = key.val
  ofOther : event.key? t.keymap = none → t.waitKey.1 = 0
  answer_lt : t.waitKey.1.toNat < 16
  quit : t.waitKey.2.quit = (t.quit || event.asksToQuit)
  held : ∀ key, (Host.keyDown key t.waitKey.2).1 = false
  delay : t.waitKey.2.timers.delay = 0
  sound : t.waitKey.2.timers.sound = 0
  /-- Nothing else depends on the reports. -/
  others : t.waitKey.2 = { t with
    held := Vector.replicate 16 0
    timers := t.timers.reset
    quit := t.quit || event.asksToQuit
    pending := t.pending.or t.output.flush.1
    keyboard := t.waitKey.2.keyboard
    output := t.output.flush.2 }

/-- A wait takes reports up to one that ends it, unless there is none: then it finds the keyboard
gone. -/
theorem waitKey_cases (t : Terminal) :
    (∃ skipped event, t.Takes skipped event) ∨
      ¬ t.Answered ∧ t.waitKey.2.keyboard.starved = true := by
  obtain ⟨skipped, event, wait, k, hscan, hsplit, htakes⟩ | ⟨k, hscan, -, hstarved, hnone⟩ :=
    scanLooks_split t.keymap t.quit (k := t.keyboard) rfl
  · refine .inl ⟨skipped, event, ?_⟩
    have hwait := waitKey_of_scanLooks hscan
    rw [htakes.answer, htakes.quit] at hwait
    exact
      { upcoming := by rw [hwait, hsplit]
        passed := htakes.passed
        ends := htakes.ends
        ofKey := fun key hkey => by
          have hlt := key.isLt
          rw [hwait, InputEvent.answer, hkey, Option.elim_some, UInt8.toNat_ofNat']
          omega
        ofOther := fun hnone => by rw [hwait, InputEvent.answer, hnone, Option.elim_none]
        answer_lt := by
          rw [hwait]
          exact event.toNat_answer_lt t.keymap
        quit := by rw [hwait]
        held := fun key => by
          rw [hwait]
          simp [Host.keyDown, Vector.get]
        delay := by rw [hwait, Timers.reset]
        sound := by rw [hwait, Timers.reset]
        others := by rw [hwait] }
  · refine .inr ⟨?_, ?_⟩
    · rintro ⟨event, hmem, hends⟩
      exact Bool.false_ne_true ((hnone event hmem).symm.trans hends)
    · rw [waitKey_of_starved hscan]
      exact hstarved

/-- Whatever happens to the terminal between the steps of a machine, the machine is never halted by
a key that it waited for. -/
theorem not_fetches_of_badKey {m : Machine}
    (h : Session (fun _ : Terminal => True) (fun _ _ => True) m t)
    (hstatus : m.status = .halted .badKey) (x : Register) : ¬ m.Fetches (.waitKey x) := by
  induction h with
  | boot hboot _ =>
    have hrunning := (Machine.sameControl_load hboot).status
    cases hrunning.symm.trans hstatus
  | act _ _ ih => exact ih hstatus
  | @step m t turn hsession hstep ih =>
    have hsound := hsession.reachable.sound
    have hturn := hsound.turn_eq hstep
    intro hfetch
    cases hfault : turn.fault with
    | none =>
      have hrunning := (hsound.step hstep).2.2
      rw [hfault] at hrunning
      cases hrunning.symm.trans hstatus
    | some cause =>
      have hmachine := Machine.turn_machine_of_fault (hturn.symm ▸ hfault)
      rw [hturn] at hmachine
      rw [hmachine] at hfetch
      have htakes := turn_of_wait (m := m) hfetch t
      rw [← hturn, htakes] at hfault
      cases hfault

/-- A wait takes the shortest run of reports that ends it, or finds the keyboard gone if there is
none, and no program on a terminal is halted because of a key that it waited for. -/
theorem waits_take_shortest :
    (∀ t : Terminal, (t.Answered → ∃ skipped event, t.Takes skipped event) ∧
        (¬ t.Answered → t.waitKey.2.keyboard.starved = true)) ∧
      ∀ (m : Machine) (t : Terminal),
        Session (fun _ : Terminal => True) (fun _ _ => True) m t →
        m.status = .halted .badKey → ∀ x, ¬ m.Fetches (.waitKey x) := by
  refine ⟨fun t => ?_, fun m t hsession hstatus x => ?_⟩
  · obtain ⟨skipped, event, htakes⟩ | ⟨hnot, hstarved⟩ := t.waitKey_cases
    · have hanswered : t.Answered :=
        ⟨event, htakes.upcoming ▸ List.mem_append_right _ (List.mem_cons_self ..), htakes.ends⟩
      exact ⟨fun _ => ⟨skipped, event, htakes⟩, fun hnot => absurd hanswered hnot⟩
    · exact ⟨fun hanswered => absurd hanswered hnot, fun _ => hstarved⟩
  · exact not_fetches_of_badKey hsession hstatus x

/-- A wait that passes over the mouse and over a key without a meaning, and a program that is halted
because it tests a key that the keypad does not have. -/
theorem waits_pass_over_mouse :
    (∃ (t : Terminal) (skipped : List InputEvent) (event : InputEvent),
      t.keyboard.events = [.mouse, .key .other, .key (.char 'w' false), .key .escape] ∧
      t.Answered ∧ t.Takes skipped event) ∧
    ∃ (m : Machine) (t : Terminal), Session (fun _ : Terminal => True) (fun _ _ => True) m t ∧
      m.status = .halted .badKey ∧ ∀ x, ¬ m.Fetches (.waitKey x) := by
  constructor
  · let t : Terminal :=
      enter .conventional { events := [.mouse, .key .other, .key (.char 'w' false), .key .escape] }
    have hanswered : t.Answered := ⟨.key .escape, by decide, rfl⟩
    obtain ⟨skipped, event, htakes⟩ := (waits_take_shortest.1 t).1 hanswered
    exact ⟨t, skipped, event, rfl, hanswered, htakes⟩
  · obtain ⟨m, hboot, hm, hstatus, -, -, -, hpc, hwords⟩ :=
      Machine.exists_boot .cosmac (.cycle []) [0x60, 0x10, 0xe0, 0x9e] (by decide)
    have hset : m.Fetches (.setByte (lastDigit 0) 0x10) :=
      Machine.fetches_of_pc hpc (by decide) (hwords 0 (by decide))
    let m₁ := m.pass.set (lastDigit 0) 0x10
    have htest : m₁.Fetches (.skipIfKey (lastDigit 0)) :=
      Machine.fetches_of_pc (hpc ▸ hset.1.toNat_pc_pass) (by decide) (hwords 2 (by decide))
    have heffect : m₁.effect = .error .badKey := by
      have hreg : m₁.pass.reg (lastDigit 0) = 0x10 :=
        (m.pass.reg_set (lastDigit 0) 0x10 (lastDigit 0)).trans (if_pos rfl)
      have hkey : ¬ (m₁.pass.reg (lastDigit 0)).toNat < 16 := by
        rw [hreg]
        decide
      rw [htest.effect_eq]
      exact dif_neg hkey
    let t : Terminal := enter .conventional {}
    have hfirst : m.step t = .ok ⟨m₁, t, none⟩ := by
      rw [Machine.step_eq_turn hstatus hm.sound.depth_le, Machine.turn_quiet hset.effect_eq]
    have hsecond : m₁.step t = .ok ⟨m₁.halt .badKey, t, some .badKey⟩ := by
      rw [Machine.step_eq_turn (m := m₁) hstatus hm.sound.depth_le, Machine.turn, heffect]
      rfl
    have hsession : Session (fun _ : Terminal => True) (fun _ _ => True) (m₁.halt .badKey) t :=
      .step (.step (.boot hboot trivial) hfirst) hsecond
    exact ⟨m₁.halt .badKey, t, hsession, rfl, waits_take_shortest.2 _ t hsession rfl⟩

end Terminal
end Chip8
