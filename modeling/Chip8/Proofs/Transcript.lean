import Chip8.Proofs.Surfacing

/-!
# What a run writes

After the pieces that prepare the screen, a run on a terminal writes drawing and bells and nothing
else. If nothing that is sent gets lost, the run does not end with a failure: the machine halts, or
the user asks to stop, or the timers cannot catch up.
-/
namespace Chip8

def Piece.depicts : Piece → Bool
  | enterAlternate | leaveAlternate | hideCursor | showCursor => false
  | _ => true

theorem Piece.depicts_dot (d : Dot) : ∀ piece ∈ Piece.dot d, piece.depicts = true := by
  simp [dot, moveTo, depicts]

namespace Output

variable {o o' : Output} {cause : OsError} {pieces : List Piece}

/-- Everything that is sent arrives. -/
structure Reliable (o : Output) : Prop where
  outcome : ∀ n, o.outcome n = none
  spillOutcome : ∀ n, o.spillOutcome n = none

theorem Reliable.of_leads (h : o.Reliable) (hleads : o.Leads o') : o'.Reliable where
  outcome n := by rw [hleads.outcome, h.outcome]
  spillOutcome n := by rw [hleads.spillOutcome, h.spillOutcome]

theorem Reliable.not_failedWith (h : o.Reliable) : ¬ o.FailedWith o' cause := by
  rintro (⟨n, -, -, hcause⟩ | ⟨n, -, -, hcause⟩)
  · cases (h.outcome n).symm.trans hcause
  · cases (h.spillOutcome n).symm.trans hcause

/-- All that was written prepares the screen and then draws on it and rings, and it arrives. -/
structure Sketch (o : Output) : Prop where
  reliable : o.Reliable
  written : ∃ drawing : List Piece, (∀ piece ∈ drawing, piece.depicts = true) ∧
    o.written.toList = Piece.prepare ++ drawing

theorem Sketch.queue (h : o.Sketch) (hpieces : ∀ piece ∈ pieces, piece.depicts = true) :
    (o.queue pieces).2.Sketch := by
  refine ⟨h.reliable.of_leads (o.leads_queue pieces), ?_⟩
  have hkept : (o.queue pieces).1 = none := Option.eq_none_iff_forall_ne_some.mpr
    fun cause hcause => h.reliable.not_failedWith (failedWith_queue_iff.mpr hcause)
  obtain ⟨drawing, hdrawing, hwritten⟩ := h.written
  refine ⟨drawing ++ pieces, List.forall_mem_append.mpr ⟨hdrawing, hpieces⟩, ?_⟩
  rw [written_queue hkept, Array.toList_appendList, hwritten, List.append_assoc]

theorem Sketch.flush (h : o.Sketch) : o.flush.2.Sketch :=
  ⟨h.reliable.of_leads o.leads_flush, by rw [written_flush]; exact h.written⟩

end Output

namespace Terminal

variable {t : Terminal} {m : Machine}

theorem sketch_enter (keymap : Keymap) (keyboard : Keyboard) :
    (enter keymap keyboard).output.Sketch where
  reliable := ⟨fun _ => rfl, fun _ => rfl⟩
  written := ⟨[], List.forall_mem_nil _, rfl⟩

theorem sketch_deliver (h : t.output.Sketch) (notice : Notice) :
    (notice.deliver t).output.Sketch := by
  cases notice with
  | clear => exact h.queue (List.forall_mem_singleton.mpr rfl)
  | plot dot => exact h.queue (Piece.depicts_dot dot)
  | setDelay value | setSound value => exact h

theorem sketch_foldl_deliver (h : t.output.Sketch) (notices : List Notice) :
    (notices.foldl Notice.deliver t).output.Sketch := by
  induction notices generalizing t with
  | nil => exact h
  | cons notice notices ih => exact ih (sketch_deliver h notice)

theorem sketch_turn (h : t.output.Sketch) (m : Machine) : (m.turn t).host.output.Sketch := by
  obtain ⟨x, -, hturn⟩ | ⟨-, notices, hhost, -⟩ := turn_on_terminal m t
  · rw [hturn]
    change t.waitKey.2.output.Sketch
    rw [output_waitKey]
    exact h.flush
  · rw [hhost]
    exact sketch_foldl_deliver h notices

theorem sketch_present (h : t.output.Sketch) : t.present.2.output.Sketch :=
  keeps_present (p := Output.Sketch) (fun _ h => h.queue (List.forall_mem_singleton.mpr rfl))
    (fun _ h => h.flush) h

/-- While everything arrives and nobody has asked to stop, a turn leaves no error behind. -/
theorem pending_turn (hreliable : t.output.Reliable) (hpending : t.pending = none)
    (hcalm : (m.turn t).host.quit = false) : (m.turn t).host.pending = none := by
  refine Option.eq_none_iff_forall_ne_some.mpr fun cause hcause => ?_
  obtain ⟨x, -, hturn⟩ | ⟨-, notices, hhost, -⟩ := turn_on_terminal m t
  · rw [hturn] at hcalm hcause
    obtain hkept | ⟨-, hquit⟩ := t.pending_waitKey
    · rw [hkept, hpending, Option.none_or] at hcause
      exact hreliable.not_failedWith (Output.failedWith_flush hcause)
    · cases hcalm.symm.trans hquit
  · rw [hhost] at hcause
    obtain hbefore | hfailed := (remembers_foldl_deliver notices t).origin cause hcause
    · cases hpending.symm.trans hbefore
    · exact hreliable.not_failedWith hfailed

end Terminal

namespace Console

variable {c c' : Console Terminal} {act : Act Terminal} {ending : Option Ending}

theorem Act.Occurs.sketch (hoccurs : act.Occurs c) (hm : c.machine.Sound)
    (h : c.frontend.output.Sketch) : (act.result c).frontend.output.Sketch := by
  cases act with
  | step turn =>
    have hturn := hm.turn_eq hoccurs.2
    exact hturn ▸ Terminal.sketch_turn h c.machine
  | frame shown =>
    obtain ⟨timers, hpresent⟩ := Shows.present hoccurs
    have hsketch := Terminal.sketch_present (t := { c.frontend with timers }) h
    rw [hpresent] at hsketch
    exact hsketch

theorem persists_clear : Persists fun c : Console Terminal =>
    c.frontend.output.Sketch ∧ c.frontend.pending = none := by
  intro c act hm hoccurs hgoesOn h
  refine ⟨hoccurs.sketch hm h.1, ?_⟩
  cases act with
  | step turn =>
    have hturn := hm.turn_eq hoccurs.2
    have hcalm := hoccurs.quit_of_goesOn hgoesOn
    exact hturn ▸ Terminal.pending_turn h.1.reliable h.2 (hturn.symm ▸ hcalm)
  | frame shown => exact (Shows.of_goesOn hoccurs hgoesOn).2.1

namespace Course

variable {n : Nat} {durations : List Float} {rounds : List (Round Terminal)}

theorem sketch (h : Course n c durations rounds c' ending) (hm : c.machine.Sound)
    (hsketch : c.frontend.output.Sketch) : c'.machine.Sound ∧ c'.frontend.output.Sketch :=
  h.acts.keeps (p := fun c => c.frontend.output.Sketch)
    (fun _ _ _ hm hoccurs hc => hoccurs.sketch hm hc) hm hsketch

/-- A run on a terminal to which everything can be sent does not end with a failure. -/
theorem ending_of_sketch {e : Ending} (h : Course n c durations rounds c' (some e))
    (hm : c.machine.Sound) (hsketch : c.frontend.output.Sketch)
    (hpending : c.frontend.pending = none) :
    e = .quit ∨ (∃ cause, e = .halted cause) ∨ e = .overslept := by
  obtain ⟨start, last, hmoment, hoccurs, -, hlast | ⟨-, hoverslept⟩⟩ := h.last_moment
  · cases last with
    | step turn => exact (Turn.ending_cases hlast.symm).imp_right .inl
    | frame shown =>
      obtain hquit | ⟨cause, rfl⟩ := Shown.ending_cases hlast.symm
      · exact .inl hquit
      · obtain ⟨-, hreliable, hnone⟩ := h.persists persists_clear hm ⟨hsketch, hpending⟩ hmoment
        have hanswer := Shown.ending_eq_failed.mp hlast.symm
        obtain ⟨own, hown, -⟩ | ⟨own, -, -, hfailed⟩ | ⟨-, hok, -⟩ := Shows.cases hoccurs
        · cases hnone.symm.trans hown
        · exact absurd hfailed hreliable.reliable.not_failedWith
        · cases hok.symm.trans hanswer
  · exact .inr (.inr (Option.some.inj hoverslept))

end Course

end Console
end Chip8
