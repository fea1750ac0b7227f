import Chip8.Proofs.History

/-!
# What a terminal remembers for its frames

From one call to the next a terminal remembers a failure that no frame has reported, whether it has
been asked to stop, and whether something was drawn that no frame has shown. All three can be read
off the log. So a frame reports the first failure of the waits before it, does nothing else then,
and no later frame reports it again; any other frame reports the failure of its own flush, or goes
on unless the user has ever asked to stop.

Room can always be made for what is written here, and a wait always finds its key.
-/
namespace Chip8.Terminal

variable {start t : Terminal} {entry : Entry} {entries : List Entry} {cause : OsError}

/-- The user asked to stop in one of the reports that were taken. -/
def Entry.asks (entry : Entry) : Bool :=
  entry.heard.any InputEvent.asksToQuit

/-- The first failure of the waits since the last frame. -/
def unreported (log : List Entry) : Option OsError :=
  ((since Entry.isFrame log).filter Entry.isWait).reverse.findSome? Entry.failure?

theorem unreported_of_frame (h : entry.isFrame = true) : unreported (entry :: entries) = none := by
  rw [unreported, since_of_kind h, List.filter_nil, List.reverse_nil, List.findSome?_nil]

theorem unreported_of_wait (h : entry.isWait = true) :
    unreported (entry :: entries) = (unreported entries).or entry.failure? := by
  have hframe : entry.isFrame = false := by
    obtain ⟨t, rfl⟩ := Entry.exists_of_isWait h
    rfl
  rw [unreported, since_of_not_kind hframe, List.filter_cons_of_pos h, List.reverse_cons,
    List.findSome?_append, List.findSome?_singleton, unreported]

theorem unreported_of_other (hwait : entry.isWait = false) (hframe : entry.isFrame = false) :
    unreported (entry :: entries) = unreported entries := by
  rw [unreported, since_of_not_kind hframe, List.filter_cons_of_neg (by simp [hwait]), unreported]

/-- What has not been reported is the failure of a wait that is newer than the last frame. -/
theorem exists_of_unreported (h : unreported entries = some cause) :
    ∃ entry ∈ since Entry.isFrame entries, entry.isWait = true ∧ entry.failure? = some cause := by
  obtain ⟨entry, hmem, hcause⟩ := List.exists_of_findSome?_eq_some h
  obtain ⟨hmem, hwait⟩ := List.mem_filter.mp (List.mem_reverse.mp hmem)
  exact ⟨entry, hmem, hwait, hcause⟩

/-- There is something to report exactly if a wait since the last frame failed. -/
theorem isSome_unreported_iff : (unreported entries).isSome = true ↔
    ∃ entry ∈ since Entry.isFrame entries, entry.isWait = true ∧ entry.failure?.isSome = true := by
  simp only [unreported, List.findSome?_isSome_iff, List.mem_reverse, List.mem_filter, and_assoc]

/-! ## Single frames -/

/-- Ringing the bell neither fails nor flushes while room can be made for it. -/
theorem ring_of_unspilt (h : ∀ n, t.output.spillOutcome n = none) :
    ∃ output, t.ring = (none, { t with output }) ∧
      output.flushes = t.output.flushes ∧ output.outcome = t.output.outcome := by
  rw [ring]
  split
  · have hqueue := (Output.queue_unspilt h [.bell]).1
    exact ⟨_, by rw [← hqueue], t.output.flushes_queue [.bell], (t.output.leads_queue _).outcome⟩
  · exact ⟨t.output, rfl, rfl, rfl⟩

theorem answer_refresh (t : Terminal) :
    t.refresh.1 = t.output.flush.1.elim (.ok !t.quit) fun cause => .error (.io cause) := by
  rw [refresh]
  split <;> next h => rw [h]; rfl

/-- The answer of a frame that has nothing to report. -/
theorem answer_of_polls (hunspilt : ∀ n, t.output.spillOutcome n = none)
    (hpending : t.pending = none) :
    t.present.1 = (Entry.failure? ⟨t, .frame⟩).elim (.ok !t.present.2.quit)
      fun cause => .error (.io cause) := by
  have houtput : t.poll.output = t.output := t.output_poll
  obtain ⟨output, hring, hflushes, houtcome⟩ := ring_of_unspilt (t := t.poll) (by rwa [houtput])
  have hpresent : t.present = ({ t.poll with output } : Terminal).refresh := by
    rw [present, hpending, hring]
  have hquit : t.present.2.quit = t.poll.quit := by
    obtain ⟨output, dirty, hpolls⟩ := present_of_polls hpending
    rw [hpolls]
  have hfailure : Entry.failure? ⟨t, .frame⟩ = output.flush.1 := by
    change t.output.failure? t.present.2.output = output.flush.1
    rw [← houtput, hpresent, output_refresh, ← output.failure_flush]
    rw [Output.failure?, Output.failure?, hflushes, houtcome]
  rw [hfailure, hquit, hpresent, answer_refresh]

/-! ## What single entries remember -/

theorem unspilt_after (h : ∀ n, entry.before.output.spillOutcome n = none) :
    ∀ n, entry.after.output.spillOutcome n = none := by
  have hflush (o : Output) (ho : ∀ n, o.spillOutcome n = none) :
      ∀ n, o.flush.2.spillOutcome n = none := by
    rwa [Output.spillOutcome_flush]
  cases hwait : entry.isWait with
  | true =>
    obtain ⟨t, rfl⟩ := Entry.exists_of_isWait hwait
    change ∀ n, t.waitKey.2.output.spillOutcome n = none
    rw [output_waitKey]
    exact hflush t.output h
  | false =>
    cases hframe : entry.isFrame with
    | true =>
      obtain ⟨t, rfl⟩ := Entry.exists_of_isFrame hframe
      exact keeps_present (p := fun o => ∀ n, o.spillOutcome n = none)
        (fun _ ho => (Output.queue_unspilt ho _).2) hflush h
    | false =>
      obtain ⟨pieces, houtput, -⟩ := (untouched hwait hframe).writes
      rw [houtput]
      exact (Output.queue_unspilt h pieces).2

/-- A wait remembers the failure of its flush if there was none before. -/
theorem pending_of_wait (h : entry.isWait = true) (hanswered : entry.before.Answered) :
    entry.after.pending = entry.before.pending.or entry.failure? := by
  obtain ⟨t, rfl⟩ := Entry.exists_of_isWait h
  obtain ⟨skipped, event, htakes⟩ | ⟨hnot, -⟩ := t.waitKey_cases
  · have hfailure : Entry.failure? ⟨t, .waitKey⟩ = t.output.flush.1 := by
      change t.output.failure? t.waitKey.2.output = t.output.flush.1
      rw [output_waitKey, Output.failure_flush]
    change t.waitKey.2.pending = t.pending.or _
    rw [hfailure, htakes.others]
  · exact absurd hanswered hnot

/-- Nothing is left to report after a frame. -/
theorem pending_of_frame (h : entry.isFrame = true) : entry.after.pending = none := by
  obtain ⟨t, rfl⟩ := Entry.exists_of_isFrame h
  change t.present.2.pending = none
  cases hpending : t.pending with
  | some cause => rw [present_of_pending hpending]
  | none =>
    obtain ⟨output, dirty, hpresent⟩ := present_of_polls hpending
    rw [hpresent, poll_eq]
    exact hpending

theorem pending_of_other (hunspilt : ∀ n, entry.before.output.spillOutcome n = none)
    (hwait : entry.isWait = false) (hframe : entry.isFrame = false) :
    entry.after.pending = entry.before.pending := by
  obtain ⟨pieces, -, hpending⟩ := (untouched hwait hframe).writes
  rw [hpending, (Output.queue_unspilt hunspilt pieces).1, Option.or_none]

theorem quit_of_wait (h : entry.isWait = true) (hanswered : entry.before.Answered) :
    entry.after.quit = (entry.before.quit || entry.asks) := by
  obtain ⟨t, rfl⟩ := Entry.exists_of_isWait h
  obtain ⟨skipped, event, htakes⟩ | ⟨hnot, -⟩ := t.waitKey_cases
  · have hasks : Entry.asks ⟨t, .waitKey⟩ = event.asksToQuit := by
      rw [Entry.asks, htakes.heard, List.any_append, calm_of_passed htakes.passed]
      simp
    rw [hasks]
    exact htakes.quit
  · exact absurd hanswered hnot

theorem quit_of_frame (h : entry.isFrame = true) :
    entry.after.quit = (entry.before.quit || entry.asks) := by
  obtain ⟨t, rfl⟩ := Entry.exists_of_isFrame h
  change t.present.2.quit =
    (t.quit || (t.keyboard.taken t.present.2.keyboard).any InputEvent.asksToQuit)
  cases hpending : t.pending with
  | some cause =>
    rw [present_of_pending hpending, Keyboard.taken_self, List.any_nil, Bool.or_false]
  | none =>
    obtain ⟨output, dirty, hpresent⟩ := present_of_polls hpending
    rw [hpresent, poll_eq, Keyboard.any_taken_drain]

/-- A terminal has been asked to stop if it had been before, or if a report that was taken asks
to. -/
theorem quit_after (hanswered : entry.isWait = true → entry.before.Answered) :
    entry.after.quit = (entry.before.quit || entry.asks) := by
  cases hwait : entry.isWait with
  | true => exact quit_of_wait hwait (hanswered hwait)
  | false =>
    cases hframe : entry.isFrame with
    | true => exact quit_of_frame hframe
    | false =>
      have h := untouched hwait hframe
      rw [h.quit, Entry.asks, h.heard, List.any_nil, Bool.or_false]

theorem dirty_of_shows (h : entry.shows = true) : entry.after.dirty = false := by
  obtain ⟨hframe, hok⟩ := Bool.and_eq_true_iff.mp h
  obtain ⟨t, rfl⟩ := Entry.exists_of_isFrame hframe
  change t.present.1.toBool = true at hok
  change t.present.2.dirty = false
  obtain ⟨cause, -, hpresent⟩ | ⟨cause, output, -, hpresent, -⟩ | ⟨output, -, hpresent, -⟩ :=
    t.present_cases
  all_goals rw [hpresent] at hok ⊢
  · cases hok
  · cases hok

/-- Only a frame that succeeds makes a terminal forget what was drawn. -/
theorem dirty_of_not_shows (h : entry.shows = false) :
    entry.after.dirty = (entry.before.dirty || entry.draws) := by
  rcases entry with ⟨t, happening⟩
  cases happening with
  | tell notice => exact dirty_deliver notice t
  | readDelay | testKey key | input keyboard | time timers => exact (Bool.or_false _).symm
  | waitKey =>
    change t.waitKey.2.dirty = (t.dirty || false)
    rw [waitKey_eq, Bool.or_false]
  | frame =>
    change t.present.1.toBool = false at h
    change t.present.2.dirty = (t.dirty || false)
    have hpoll : t.poll.dirty = t.dirty := by rw [poll_eq]
    rw [Bool.or_false]
    obtain ⟨cause, -, hpresent⟩ | ⟨cause, output, -, hpresent, -⟩ | ⟨output, -, hpresent, -⟩ :=
      t.present_cases
    all_goals rw [hpresent] at h ⊢
    · exact hpoll
    · cases h

/-! ## Logs -/

/-- A terminal remembers what its log tells. -/
structure Remembered (log : List Entry) (t : Terminal) : Prop where
  unspilt : ∀ n, t.output.spillOutcome n = none
  pending : t.pending = unreported log
  quit : t.quit = log.any Entry.asks
  dirty : t.dirty = (since Entry.shows log).any Entry.draws

theorem Fresh.remembered (h : t.Fresh) : Remembered [] t := by
  obtain ⟨keymap, keyboard, outcome, rfl⟩ := h
  exact ⟨fun _ => rfl, rfl, rfl, rfl⟩

/-- Whatever happens, a terminal goes on remembering what its log tells. -/
theorem Remembered.cons (h : Remembered entries entry.before)
    (hanswered : entry.isWait = true → entry.before.Answered) :
    Remembered (entry :: entries) entry.after where
  unspilt := unspilt_after h.unspilt
  pending := by
    cases hframe : entry.isFrame with
    | true => rw [pending_of_frame hframe, unreported_of_frame hframe]
    | false =>
      cases hwait : entry.isWait with
      | true =>
        rw [pending_of_wait hwait (hanswered hwait), h.pending, unreported_of_wait hwait]
      | false =>
        rw [pending_of_other h.unspilt hwait hframe, h.pending,
          unreported_of_other hwait hframe]
  quit := by rw [quit_after hanswered, h.quit, List.any_cons, Bool.or_comm]
  dirty := by
    cases hshows : entry.shows with
    | true => rw [dirty_of_shows hshows, since_of_kind hshows, List.any_nil]
    | false =>
      rw [dirty_of_not_shows hshows, h.dirty, since_of_not_kind hshows, List.any_cons,
        Bool.or_comm]

theorem remembered_after (hfresh : start.Fresh) {happenings : List Happening}
    (hanswered : ∀ entry ∈ log start happenings, entry.isWait = true → entry.before.Answered) :
    Remembered (log start happenings) (after start happenings) := by
  induction happenings with
  | nil => exact hfresh.remembered
  | cons happening earlier ih =>
    obtain ⟨hlast, hearlier⟩ := List.forall_mem_cons.mp hanswered
    exact (ih hearlier).cons hlast

/-- What the next frame answers. -/
theorem Remembered.answer {log : List Entry} (h : Remembered log t) :
    t.present.1 = ((unreported log).or (Entry.failure? ⟨t, .frame⟩)).elim
      (.ok !(⟨t, .frame⟩ :: log : List Entry).any Entry.asks)
      fun cause => .error (.io cause) := by
  rw [← h.pending]
  cases hpending : t.pending with
  | some cause =>
    rw [present_of_pending hpending]
    rfl
  | none =>
    have hquit := quit_of_frame (rfl : Entry.isFrame ⟨t, .frame⟩ = true)
    change t.present.2.quit = (t.quit || Entry.asks ⟨t, .frame⟩) at hquit
    rw [answer_of_polls h.unspilt hpending, hquit, h.quit, Option.none_or, List.any_cons,
      Bool.or_comm]

/-- How the frames of a terminal answer, and when it asks for one. -/
structure Reports (log : List Entry) (t : Terminal) : Prop where
  /-- A frame fails exactly if a wait since the last frame failed to flush, or the frame itself. -/
  fails_iff : (∃ failure, t.present.1 = .error failure) ↔
    (∃ entry ∈ since Entry.isFrame log, entry.isWait = true ∧ entry.failure?.isSome = true) ∨
      (Entry.failure? ⟨t, .frame⟩).isSome = true
  /-- The first failure of the waits is reported, and then nothing else happens. -/
  kept : ∀ cause, unreported log = some cause →
    t.present = (.error (.io cause), { t with pending := none })
  own : ∀ cause, unreported log = none → Entry.failure? ⟨t, .frame⟩ = some cause →
    t.present.1 = .error (.io cause)
  /-- Any other frame goes on unless the user has ever asked to stop. -/
  more_iff : ∀ more, t.present.1 = .ok more →
    (more = true ↔ ∀ entry ∈ (⟨t, .frame⟩ :: log : List Entry), ∀ event ∈ entry.heard,
      event.asksToQuit = false)
  /-- What a frame reports failed after every frame before it. -/
  once : ∀ newer last older, log = newer ++ last :: older → last.isFrame = true →
    ∀ cause, t.present.1 = .error (.io cause) →
      ∃ entry ∈ (⟨t, .frame⟩ :: newer : List Entry), entry.failure? = some cause
  /-- A frame is asked for exactly if something was drawn since the last one that succeeded. -/
  ready_iff : Frontend.wantsFrame t = true ↔
    ∃ entry ∈ since Entry.shows log, entry.draws = true

theorem Remembered.reports {log : List Entry} (h : Remembered log t) : Reports log t where
  fails_iff := by
    rw [h.answer, ← isSome_unreported_iff, ← Bool.or_eq_true, ← Option.isSome_or]
    cases (unreported log).or (Entry.failure? ⟨t, .frame⟩) <;> simp
  kept cause hcause := present_of_pending (h.pending.trans hcause)
  own cause hnone hcause := by rw [h.answer, hnone, hcause, Option.none_or, Option.elim_some]
  more_iff more hmore := by
    rw [h.answer] at hmore
    cases hfailure : (unreported log).or (Entry.failure? ⟨t, .frame⟩) with
    | some cause =>
      rw [hfailure] at hmore
      cases hmore
    | none =>
      rw [hfailure] at hmore
      rw [← Except.ok.inj hmore]
      simp only [Bool.not_eq_true', List.any_eq_false, Entry.asks, Bool.not_eq_true]
  once newer last older hlog hlast cause hcause := by
    rw [h.answer] at hcause
    cases hunreported : unreported log with
    | some kept =>
      rw [hunreported] at hcause
      cases hcause
      obtain ⟨entry, hmem, -, hfailure⟩ := exists_of_unreported hunreported
      rw [hlog] at hmem
      exact ⟨entry, List.mem_cons_of_mem _ (mem_of_mem_since hlast hmem), hfailure⟩
    | none =>
      refine ⟨⟨t, .frame⟩, List.mem_cons_self .., ?_⟩
      rw [hunreported, Option.none_or] at hcause
      cases hfailure : Entry.failure? ⟨t, .frame⟩ with
      | none =>
        rw [hfailure] at hcause
        cases hcause
      | some own =>
        rw [hfailure] at hcause
        cases hcause
        rfl
  ready_iff := by
    change t.dirty = true ↔ _
    rw [h.dirty, List.any_eq_true]

/-- Whatever has happened to a fresh terminal, each failure is reported by one frame, and frames are
asked for exactly when there is something to show. -/
theorem reports_once (hfresh : start.Fresh) (happenings : List Happening)
    (hanswered : ∀ entry ∈ log start happenings, entry.isWait = true → entry.before.Answered) :
    Reports (log start happenings) (after start happenings) :=
  (remembered_after hfresh hanswered).reports

/-- A screen that is cleared before a key is waited for. It cannot be shown then, and the next frame
reports that. -/
theorem broken_pipe_reported :
    ∃ start : Terminal, start.Fresh ∧
      (∀ entry ∈ log start [.waitKey, .tell .clear],
        entry.isWait = true → entry.before.Answered) ∧
      Reports (log start [.waitKey, .tell .clear]) (after start [.waitKey, .tell .clear]) ∧
      unreported (log start [.waitKey, .tell .clear]) = some ⟨"Broken pipe", 32⟩ := by
  let keyboard : Keyboard := { events := [.key (.char '1' false)] }
  let start : Terminal := { enter .hex keyboard with
    output := { (enter .hex keyboard).output with
      outcome := fun _ => some ⟨"Broken pipe", 32⟩ } }
  have hfresh : start.Fresh := ⟨.hex, keyboard, _, rfl⟩
  have hanswered : ∀ entry ∈ log start [.waitKey, .tell .clear],
      entry.isWait = true → entry.before.Answered := by
    refine List.forall_mem_cons.mpr ⟨fun _ => ?_, List.forall_mem_singleton.mpr fun h => ?_⟩
    · exact ⟨.key (.char '1' false), List.mem_singleton_self _, by decide⟩
    · cases h
  exact ⟨start, hfresh, hanswered, reports_once hfresh _ hanswered, rfl⟩

end Chip8.Terminal
