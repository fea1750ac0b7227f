import Chip8.Proofs.Agreement
import Chip8.Proofs.Sending

/-!
# What a terminal hears

The reports that a keyboard holds or will hold are one list, `Keyboard.upcoming`. Looking at the
keyboard leaves that list as it is; waits and frames take reports from the front of it, and nothing
else does. A terminal has been asked to stop exactly if a request was among the reports taken, or
if a wait found its keyboard gone.
-/
namespace Chip8

namespace Keyboard

variable {k k' : Keyboard} {heard : List InputEvent}

/-- A look adds to the reports that are there, whatever they are. -/
theorem look_eq (k : Keyboard) :
    k.look = { ({ k with events := [] } : Keyboard).look with
      events := k.events ++ ({ k with events := [] } : Keyboard).look.events } := by
  rcases k with ⟨events, partialReport, unread, _ | ⟨_ | ⟨b, chunk⟩, later⟩, starved⟩ <;>
    simp [look]

theorem reports_eq (looks : Nat) (k : Keyboard) :
    k.reports looks = k.events ++ ({ k with events := [] } : Keyboard).reports looks := by
  cases looks <;> simp [reports]

theorem upcoming_withEvents (k : Keyboard) (events : List InputEvent) :
    ({ k with events } : Keyboard).upcoming =
      events ++ ({ k with events := [] } : Keyboard).upcoming :=
  reports_eq k.arrivals.length { k with events }

/-- A look does not change what is there or still to come. -/
theorem upcoming_look (k : Keyboard) : k.look.upcoming = k.upcoming := by
  rw [upcoming, upcoming, arrivals_look]
  cases harrivals : k.arrivals with
  | nil =>
    have hlook : k.look = k := by simp only [look, harrivals]
    rw [hlook]
    rfl
  | cons chunk later =>
    rw [List.tail_cons, List.length_cons, reports, reports_eq, look_eq, List.append_assoc,
      reports_eq later.length ({ k with events := [] } : Keyboard).look]

/-- The reports that were taken from a keyboard on the way from `k` to `k'`. -/
def taken (k k' : Keyboard) : List InputEvent :=
  k.upcoming.take (k.upcoming.length - k'.upcoming.length)

/-- One of the reports that were taken from a keyboard asks to stop. -/
def TookQuit (k k' : Keyboard) : Prop :=
  (k.taken k').any InputEvent.asksToQuit = true

theorem taken_of_append (h : k.upcoming = heard ++ k'.upcoming) : k.taken k' = heard := by
  rw [taken, h, List.length_append, Nat.add_sub_cancel, List.take_left]

@[simp] theorem taken_self (k : Keyboard) : k.taken k = [] :=
  taken_of_append rfl

theorem not_tookQuit_self (k : Keyboard) : ¬ k.TookQuit k := by
  rw [TookQuit, taken_self]
  exact Bool.false_ne_true

/-- Draining takes the reports that it gives, and maybe one about the cursor after them. -/
theorem upcoming_drain (k : Keyboard) :
    ∃ lost, k.upcoming = (k.drain.1 ++ lost) ++ k.drain.2.upcoming ∧
      ∀ event ∈ lost, event = .cursor := by
  obtain ⟨k₀, hdrain, hupcoming⟩ : ∃ k₀ : Keyboard,
      k.drain = (k₀.events.takeWhile (· ≠ .cursor),
        { k₀ with events := (k₀.events.dropWhile (· ≠ .cursor)).drop 1 }) ∧
      k₀.upcoming = k.upcoming := by
    refine ⟨if k.events.contains .cursor then k else k.look, rfl, ?_⟩
    split
    · rfl
    · exact k.upcoming_look
  refine ⟨(k₀.events.dropWhile (· ≠ .cursor)).take 1, ?_, ?_⟩
  · have hsplit := List.takeWhile_append_dropWhile (p := (· ≠ InputEvent.cursor)) (l := k₀.events)
    rw [← List.take_append_drop 1 (k₀.events.dropWhile _), ← List.append_assoc] at hsplit
    have hhere : k₀.upcoming = k₀.events ++ ({ k₀ with events := [] } : Keyboard).upcoming :=
      upcoming_withEvents k₀ k₀.events
    rw [hdrain, ← hupcoming, hhere]
    dsimp only
    rw [upcoming_withEvents k₀ (List.drop ..), ← List.append_assoc, hsplit]
  · cases hlost : k₀.events.dropWhile (· ≠ .cursor) with
    | nil => exact List.forall_mem_nil _
    | cons event rest =>
      have hcursor := List.head?_dropWhile_not (· ≠ InputEvent.cursor) k₀.events
      rw [hlost] at hcursor
      exact List.forall_mem_singleton.mpr (by simpa using hcursor)

/-- The reports that draining loses do not ask to stop. -/
theorem any_taken_drain (k : Keyboard) :
    (k.taken k.drain.2).any InputEvent.asksToQuit = k.drain.1.any InputEvent.asksToQuit := by
  obtain ⟨lost, hupcoming, hlost⟩ := k.upcoming_drain
  have hcalm : lost.any InputEvent.asksToQuit = false := by
    refine List.any_eq_false.mpr fun event hevent => ?_
    rw [hlost event hevent]
    exact Bool.false_ne_true
  rw [taken_of_append hupcoming, List.any_append, hcalm, Bool.or_false]

end Keyboard

namespace InputEvent

/-- Whether a report ends a wait: a press that stands for a key does, and so does any other press
once the user has asked to stop, be it by this press. -/
def endsWait (keymap : Keymap) (quit : Bool) : InputEvent → Bool
  | key press => (press.key? keymap).isSome || quit || press.asksToQuit
  | mouse | cursor => false

/-- What a wait answers if it ends at this report: the key, or zero if there is none. -/
def answer (keymap : Keymap) (event : InputEvent) : Byte :=
  (event.key? keymap).elim 0 fun key => UInt8.ofNat key.val

variable {keymap : Keymap} {quit : Bool} {event : InputEvent}

/-- A request to stop ends every wait. -/
theorem endsWait_of_asksToQuit (h : event.asksToQuit = true) :
    event.endsWait keymap quit = true := by
  cases event with
  | mouse | cursor => cases h
  | key press =>
    rw [asksToQuit] at h
    rw [endsWait, h, Bool.or_true]

/-- A request to stop stands for no key. -/
theorem answer_of_asksToQuit (h : event.asksToQuit = true) : event.answer keymap = 0 := by
  cases event with
  | mouse | cursor => rfl
  | key press => rw [answer, key?, KeyPress.key?_of_asksToQuit h, Option.elim_none]

theorem toNat_answer_lt (keymap : Keymap) (event : InputEvent) :
    (event.answer keymap).toNat < 16 := by
  rw [answer]
  cases event.key? keymap with
  | none => exact (by decide : (0 : Byte).toNat < 16)
  | some key =>
    have hkey := key.isLt
    rw [Option.elim_some, UInt8.toNat_ofNat']
    omega

end InputEvent

namespace Terminal

variable {keymap : Keymap} {quit : Bool} {event : InputEvent} {events skipped : List InputEvent}
  {wait : Wait}

/-! ## Waits -/

/-- A wait passes over the reports `skipped` and ends at the report `event`. -/
structure Wait.Takes (wait : Wait) (keymap : Keymap) (quit : Bool) (skipped : List InputEvent)
    (event : InputEvent) : Prop where
  passed : ∀ report ∈ skipped, report.endsWait keymap quit = false
  ends : event.endsWait keymap quit = true
  answer : wait.answer = event.answer keymap
  quit : wait.quit = (quit || event.asksToQuit)

/-- A press that stands for a key does not ask to stop. -/
theorem calm_of_key? {press : KeyPress} {key : Key} (h : press.key? keymap = some key) :
    press.asksToQuit = false := by
  cases hasks : press.asksToQuit with
  | false => rfl
  | true =>
    rw [KeyPress.key?_of_asksToQuit hasks] at h
    cases h

theorem scan_of_passed (h : event.endsWait keymap quit = false) :
    scan keymap quit (event :: events) = scan keymap quit events := by
  cases event with
  | mouse | cursor => rfl
  | key press =>
    rw [InputEvent.endsWait, Bool.or_eq_false_iff, Bool.or_eq_false_iff] at h
    obtain ⟨⟨hkey, rfl⟩, hasks⟩ := h
    have hnone := Option.isNone_iff_eq_none.mp (Option.isSome_eq_false_iff.mp hkey)
    rw [scan, hnone, hasks]
    rfl

theorem scan_of_ends (h : event.endsWait keymap quit = true) :
    scan keymap quit (event :: events) =
      some ⟨event.answer keymap, quit || event.asksToQuit, events⟩ := by
  cases event with
  | mouse | cursor => cases h
  | key press =>
    rw [scan, InputEvent.answer, InputEvent.key?, InputEvent.asksToQuit]
    rw [InputEvent.endsWait] at h
    cases hkey : press.key? keymap with
    | some key =>
      simp only [calm_of_key? hkey, Bool.or_false, Option.elim_some]
    | none =>
      rw [hkey] at h
      have hquit : (quit || press.asksToQuit) = true := h
      simp only [hquit, if_true, Option.elim_none]

/-- Going through reports ends at the first that ends the wait, if there is one. -/
theorem scan_split (keymap : Keymap) (quit : Bool) (events : List InputEvent) :
    (∃ skipped event wait, scan keymap quit events = some wait ∧
        events = skipped ++ event :: wait.rest ∧ wait.Takes keymap quit skipped event) ∨
      scan keymap quit events = none ∧ ∀ event ∈ events, event.endsWait keymap quit = false := by
  induction events with
  | nil => exact .inr ⟨rfl, List.forall_mem_nil _⟩
  | cons event events ih =>
    cases hends : event.endsWait keymap quit with
    | true =>
      rw [scan_of_ends hends]
      exact .inl ⟨[], event, _, rfl, rfl, List.forall_mem_nil _, hends, rfl, rfl⟩
    | false =>
      rw [scan_of_passed hends]
      obtain ⟨skipped, last, wait, hscan, hsplit, htakes⟩ | ⟨hscan, hnone⟩ := ih
      · exact .inl ⟨event :: skipped, last, wait, hscan, congrArg (event :: ·) hsplit,
          List.forall_mem_cons.mpr ⟨hends, htakes.passed⟩, htakes.ends, htakes.answer, htakes.quit⟩
      · exact .inr ⟨hscan, List.forall_mem_cons.mpr ⟨hends, hnone⟩⟩

theorem Wait.Takes.append {earlier : List InputEvent} (h : wait.Takes keymap quit skipped event)
    (hearlier : ∀ report ∈ earlier, report.endsWait keymap quit = false) :
    wait.Takes keymap quit (earlier ++ skipped) event :=
  ⟨List.forall_mem_append.mpr ⟨hearlier, h.passed⟩, h.ends, h.answer, h.quit⟩

theorem scanLooks_zero {k : Keyboard} (h : scan keymap quit k.events = none) :
    scanLooks keymap quit 0 k = (none, { k with events := [], starved := true }) := by
  rw [scanLooks.eq_def]
  simp only [h]

/-- A wait goes through the reports that are there or still to come. It takes those up to the first
that ends it, or else all of them, and leaves the keyboard starved. -/
theorem scanLooks_split (keymap : Keymap) (quit : Bool) {looks : Nat} {k : Keyboard}
    (hlooks : k.arrivals.length = looks) :
    (∃ skipped event wait k', scanLooks keymap quit looks k = (some wait, k') ∧
        k.upcoming = skipped ++ event :: k'.upcoming ∧ wait.Takes keymap quit skipped event) ∨
      ∃ k', scanLooks keymap quit looks k = (none, k') ∧ k'.upcoming = [] ∧ k'.starved = true ∧
        ∀ event ∈ k.upcoming, event.endsWait keymap quit = false := by
  have hends {looks : Nat} {k : Keyboard} {skipped : List InputEvent} {event : InputEvent}
      {wait : Wait} (hscan : scan keymap quit k.events = some wait)
      (hsplit : k.events = skipped ++ event :: wait.rest)
      (htakes : wait.Takes keymap quit skipped event) :
      ∃ skipped event wait k', scanLooks keymap quit looks k = (some wait, k') ∧
        k.upcoming = skipped ++ event :: k'.upcoming ∧ wait.Takes keymap quit skipped event := by
    refine ⟨skipped, event, wait, _, scanLooks_of_scan hscan, ?_, htakes⟩
    rw [k.upcoming_withEvents wait.rest, ← List.cons_append, ← List.append_assoc, ← hsplit]
    exact k.upcoming_withEvents k.events
  induction looks generalizing k with
  | zero =>
    obtain ⟨skipped, event, wait, hscan, hsplit, htakes⟩ | ⟨hscan, hnone⟩ :=
      scan_split keymap quit k.events
    · exact .inl (hends hscan hsplit htakes)
    · have hlast (k' : Keyboard) (harrivals : k'.arrivals = k.arrivals) :
          k'.upcoming = k'.events := by
        rw [Keyboard.upcoming, harrivals, hlooks]
        rfl
      refine .inr ⟨_, scanLooks_zero hscan, hlast _ rfl, rfl, ?_⟩
      rw [hlast k rfl]
      exact hnone
  | succ looks ih =>
    obtain ⟨skipped, event, wait, hscan, hsplit, htakes⟩ | ⟨hscan, hnone⟩ :=
      scan_split keymap quit k.events
    · exact .inl (hends hscan hsplit htakes)
    · have hlooks' : ({ k with events := [] } : Keyboard).look.arrivals.length = looks := by
        rw [Keyboard.arrivals_look, List.length_tail, hlooks, Nat.add_sub_cancel]
      have hupcoming : k.upcoming =
          k.events ++ ({ k with events := [] } : Keyboard).look.upcoming := by
        rw [Keyboard.upcoming_look]
        exact k.upcoming_withEvents k.events
      rw [scanLooks_succ hscan, hupcoming]
      obtain ⟨skipped, event, wait, k', hwait, hrest, htakes⟩ |
        ⟨k', hwait, hnil, hstarved, hlater⟩ := ih hlooks'
      · refine .inl ⟨k.events ++ skipped, event, wait, k', hwait, ?_, htakes.append hnone⟩
        rw [hrest, List.append_assoc]
      · exact .inr ⟨k', hwait, hnil, hstarved, List.forall_mem_append.mpr ⟨hnone, hlater⟩⟩

/-! ### Requests to stop -/

/-- Reports none of which ends a wait do not ask to stop. -/
theorem calm_of_passed (h : ∀ report ∈ events, report.endsWait keymap quit = false) :
    events.any InputEvent.asksToQuit = false := by
  refine List.any_eq_false.mpr fun report hreport hasks => ?_
  exact Bool.false_ne_true
    ((h report hreport).symm.trans (InputEvent.endsWait_of_asksToQuit hasks))

/-- A wait ends at the last of the reports `heard`. It has been asked to stop exactly if one of them
asks to, and then it answers with zero. -/
structure Wait.EndsAt (wait : Wait) (quit : Bool) (heard : List InputEvent) : Prop where
  answer_lt : wait.answer.toNat < 16
  quit : wait.quit = (quit || heard.any InputEvent.asksToQuit)
  answer : heard.any InputEvent.asksToQuit = true → wait.answer = 0

/-- Of the reports that a wait takes, only the last can ask to stop. -/
theorem Wait.Takes.endsAt (h : wait.Takes keymap quit skipped event) :
    wait.EndsAt quit (skipped ++ [event]) := by
  have hany : (skipped ++ [event]).any InputEvent.asksToQuit = event.asksToQuit := by
    rw [List.any_append, calm_of_passed h.passed, List.any_cons, List.any_nil, Bool.or_false,
      Bool.false_or]
  refine ⟨h.answer ▸ event.toNat_answer_lt keymap, hany ▸ h.quit, fun hasks => ?_⟩
  rw [h.answer, InputEvent.answer_of_asksToQuit (hany ▸ hasks)]

/-- A wait goes through the reports that are there or still to come, up to one that ends it, or else
through all of them. -/
theorem scanLooks_cases (keymap : Keymap) (quit : Bool) {looks : Nat} {k : Keyboard}
    (hlooks : k.arrivals.length = looks) :
    (∃ wait heard k', scanLooks keymap quit looks k = (some wait, k') ∧
      k.upcoming = heard ++ k'.upcoming ∧ wait.EndsAt quit heard) ∨
    ∃ k', scanLooks keymap quit looks k = (none, k') ∧ k'.upcoming = [] ∧ k'.starved = true ∧
      k.upcoming.any InputEvent.asksToQuit = false := by
  obtain ⟨skipped, event, wait, k', hscan, hsplit, htakes⟩ |
    ⟨k', hscan, hnil, hstarved, hnone⟩ := scanLooks_split keymap quit hlooks
  · refine .inl ⟨wait, skipped ++ [event], k', hscan, ?_, htakes.endsAt⟩
    rw [hsplit, List.append_assoc, List.singleton_append]
  · exact .inr ⟨k', hscan, hnil, hstarved, calm_of_passed hnone⟩

/-- A wait that finds the keyboard gone ends as if the user had asked to stop. -/
theorem waitKey_of_starved {t : Terminal} {k : Keyboard}
    (h : scanLooks t.keymap t.quit t.keyboard.arrivals.length t.keyboard = (none, k)) :
    t.waitKey = (0,
      { t with
        held := Vector.replicate 16 0
        timers := t.timers.reset
        quit := true
        pending := (t.pending.or t.output.flush.1).or hangup
        keyboard := k
        output := t.output.flush.2 }) := by
  rw [waitKey]
  simp only [keep, h]

/-! ## Calls and frames -/

/-- What a call or a frame that leads from `t` to `t'` takes note of: each request to stop among the
reports that it takes from the keyboard, and the loss of the keyboard. -/
structure Hears (t t' : Terminal) : Prop where
  upcoming : ∃ heard, t.keyboard.upcoming = heard ++ t'.keyboard.upcoming
  quit : t.keyboard.TookQuit t'.keyboard → t'.quit = true
  asked : t'.quit = true →
    t.quit = true ∨ t.keyboard.TookQuit t'.keyboard ∨ t'.keyboard.starved = true

variable {t t' t'' : Terminal}

/-- It makes no difference what becomes of the rest of the terminal. -/
theorem Hears.congr (h : Hears t t') (hkeyboard : t''.keyboard = t'.keyboard)
    (hquit : t''.quit = t'.quit) : Hears t t'' := by
  rcases h with ⟨hupcoming, htook, hasked⟩
  rw [← hkeyboard] at hupcoming htook hasked
  rw [← hquit] at htook hasked
  exact ⟨hupcoming, htook, hasked⟩

/-- A terminal hears nothing if its keyboard is left alone. -/
theorem Hears.of_eq (hkeyboard : t'.keyboard = t.keyboard) (hquit : t'.quit = t.quit) :
    Hears t t' := by
  have hnothing : Hears t t :=
    ⟨⟨[], rfl⟩, fun htook => absurd htook t.keyboard.not_tookQuit_self, .inl⟩
  exact hnothing.congr hkeyboard hquit

/-- A wait for a key answers with a key, and with zero once it has heard a request to stop. -/
theorem hears_waitKey (t : Terminal) :
    Hears t t.waitKey.2 ∧ t.waitKey.1.toNat < 16 ∧
      (t.keyboard.TookQuit t.waitKey.2.keyboard → t.waitKey.1 = 0) := by
  obtain ⟨wait, heard, k, hscan, hupcoming, hends⟩ | ⟨k, hscan, hnil, hstarved, hcalm⟩ :=
    scanLooks_cases t.keymap t.quit (k := t.keyboard) rfl
  · rw [waitKey_of_scanLooks hscan]
    have htaken : t.keyboard.taken k = heard := Keyboard.taken_of_append hupcoming
    refine ⟨⟨⟨heard, hupcoming⟩, fun h => ?_, fun h => ?_⟩,
      hends.answer_lt, fun h => hends.answer (htaken ▸ h)⟩
    · rw [Keyboard.TookQuit, htaken] at h
      exact hends.quit.trans (by rw [h, Bool.or_true])
    · have hquit := hends.quit.symm.trans h
      rw [Bool.or_eq_true] at hquit
      rw [Keyboard.TookQuit, htaken]
      exact hquit.imp_right .inl
  · rw [waitKey_of_starved hscan]
    have hupcoming : t.keyboard.upcoming = t.keyboard.upcoming ++ k.upcoming := by
      rw [hnil, List.append_nil]
    exact ⟨⟨⟨_, hupcoming⟩, fun _ => rfl, fun _ => .inr (.inr hstarved)⟩,
      (by decide : (0 : Byte).toNat < 16), fun _ => rfl⟩

/-- A wait keeps the error of its flush, unless it finds the keyboard gone. -/
theorem pending_waitKey (t : Terminal) :
    t.waitKey.2.pending = t.pending.or t.output.flush.1 ∨
      t.waitKey.2.keyboard.starved = true ∧ t.waitKey.2.quit = true := by
  obtain ⟨wait, heard, k, hscan, -⟩ | ⟨k, hscan, -, hstarved, -⟩ :=
    scanLooks_cases t.keymap t.quit (k := t.keyboard) rfl
  · exact .inl (by rw [waitKey_of_scanLooks hscan])
  · exact .inr (by rw [waitKey_of_starved hscan]; exact ⟨hstarved, rfl⟩)

/-- A report changes which keys are held and whether the user has asked to stop. -/
theorem hear_eq (t : Terminal) (event : InputEvent) :
    t.hear event =
      { t with held := (t.hear event).held, quit := t.quit || event.asksToQuit } := by
  cases event with
  | mouse | cursor => rw [hear, InputEvent.asksToQuit, Bool.or_false]
  | key press =>
    rw [hear]
    split
    · next key hkey => rw [InputEvent.asksToQuit, calm_of_key? hkey, Bool.or_false]
    · rfl

theorem foldl_hear_eq (events : List InputEvent) (t : Terminal) :
    events.foldl hear t = { t with
      held := (events.foldl hear t).held
      quit := t.quit || events.any InputEvent.asksToQuit } := by
  induction events generalizing t with
  | nil => rw [List.foldl_nil, List.any_nil, Bool.or_false]
  | cons event events ih =>
    rw [List.foldl_cons, ih, List.any_cons, ← Bool.or_assoc, hear_eq]

theorem poll_eq (t : Terminal) : t.poll = { t with
    held := t.poll.held
    quit := t.quit || t.keyboard.drain.1.any InputEvent.asksToQuit
    keyboard := t.keyboard.drain.2 } :=
  foldl_hear_eq ..

theorem hears_poll (t : Terminal) : Hears t t.poll := by
  obtain ⟨lost, hupcoming, -⟩ := t.keyboard.upcoming_drain
  have hkeyboard : t.poll.keyboard = t.keyboard.drain.2 := by rw [poll_eq]
  have hquit : t.poll.quit = (t.quit || t.keyboard.drain.1.any InputEvent.asksToQuit) := by
    rw [poll_eq]
  have htook : (t.keyboard.taken t.poll.keyboard).any InputEvent.asksToQuit =
      t.keyboard.drain.1.any InputEvent.asksToQuit := by
    rw [hkeyboard, Keyboard.any_taken_drain]
  refine ⟨⟨_, hkeyboard ▸ hupcoming⟩, fun h => ?_, fun h => ?_⟩
  · rw [Keyboard.TookQuit, htook] at h
    rw [hquit, h, Bool.or_true]
  · rw [hquit, Bool.or_eq_true, ← htook] at h
    exact h.imp_right .inl

/-- A frame reads the keys, unless it reports an error that was kept. -/
theorem hears_present (t : Terminal) : Hears t t.present.2 := by
  obtain ⟨cause, -, hpresent⟩ | ⟨cause, output, -, hpresent, -⟩ | ⟨output, -, hpresent, -⟩ :=
    t.present_cases
  all_goals rw [hpresent]
  · exact .of_eq rfl rfl
  · exact t.hears_poll.congr rfl rfl
  · exact t.hears_poll.congr rfl rfl

/-! ## Steps -/

/-- A notice leaves the keyboard alone. -/
theorem keyboard_deliver (notice : Notice) (t : Terminal) :
    (notice.deliver t).keyboard = t.keyboard ∧ (notice.deliver t).quit = t.quit := by
  cases notice <;> exact ⟨rfl, rfl⟩

theorem keyboard_foldl_deliver (notices : List Notice) (t : Terminal) :
    (notices.foldl Notice.deliver t).keyboard = t.keyboard ∧
      (notices.foldl Notice.deliver t).quit = t.quit := by
  induction notices generalizing t with
  | nil => exact ⟨rfl, rfl⟩
  | cons notice notices ih =>
    obtain ⟨hkeyboard, hquit⟩ := ih (notice.deliver t)
    obtain ⟨hkeyboard', hquit'⟩ := keyboard_deliver notice t
    exact ⟨hkeyboard.trans hkeyboard', hquit.trans hquit'⟩

/-- A machine takes the key that it has waited for on a terminal. -/
theorem turn_of_wait {m : Machine} {x : Register} (hfetch : m.Fetches (.waitKey x))
    (t : Terminal) : m.turn t = ⟨m.pass.set x t.waitKey.1, t.waitKey.2, none⟩ := by
  have hkey : m.pass.afterKey x t.waitKey.1 = .ok (m.pass.set x t.waitKey.1) :=
    if_neg (Nat.not_le.mpr t.hears_waitKey.2.1)
  have hturn : m.turn t = m.turnOf (m.pass.afterKey x t.waitKey.1, t.waitKey.2) := by
    rw [Machine.turn, hfetch.effect_eq]
    rfl
  rw [hturn, hkey]
  rfl

/-- A turn on a terminal waits for a key and takes it, or it does no more to the terminal than give
it notices, and not even that if it fails. -/
theorem turn_on_terminal (m : Machine) (t : Terminal) :
    (∃ x, m.Fetches (.waitKey x) ∧
        m.turn t = ⟨m.pass.set x t.waitKey.1, t.waitKey.2, none⟩) ∨
      (∀ x, ¬ m.Fetches (.waitKey x)) ∧
        ∃ notices : List Notice, (m.turn t).host = notices.foldl Notice.deliver t ∧
          ((m.turn t).fault = none ∨ notices = []) := by
  by_cases hwaits : ∃ x, m.Fetches (.waitKey x)
  · obtain ⟨x, hfetch⟩ := hwaits
    exact .inl ⟨x, hfetch, turn_of_wait hfetch t⟩
  · refine .inr ⟨fun x hfetch => hwaits ⟨x, hfetch⟩, ?_⟩
    rw [Machine.turn]
    cases heffect : m.effect with
    | error cause => exact ⟨[], rfl, .inr rfl⟩
    | ok effect =>
      cases effect with
      | proceed notices next => exact ⟨notices, rfl, .inl rfl⟩
      | readDelay resume | testKey key resume => exact ⟨[], rfl, .inl rfl⟩
      | waitKey resume =>
        obtain ⟨i, hfetch, hi⟩ := Machine.exists_fetches heffect
        obtain ⟨x, rfl, -⟩ := Machine.effectOf_eq_waitKey hi
        exact absurd ⟨x, hfetch⟩ hwaits

/-- What a turn takes note of. -/
theorem hears_turn (m : Machine) (t : Terminal) : Hears t (m.turn t).host := by
  obtain ⟨x, -, hturn⟩ | ⟨-, notices, hhost, -⟩ := turn_on_terminal m t
  · rw [hturn]
    exact t.hears_waitKey.1
  · obtain ⟨hkeyboard, hquit⟩ := keyboard_foldl_deliver notices t
    rw [← hhost] at hkeyboard hquit
    exact .of_eq hkeyboard hquit

/-- A turn takes a request to stop only in a wait for a key. Its machine gets zero for an answer. -/
theorem turn_of_tookQuit {m : Machine} {t : Terminal}
    (h : t.keyboard.TookQuit (m.turn t).host.keyboard) :
    ∃ x, m.Fetches (.waitKey x) ∧ m.turn t = ⟨m.pass.set x 0, t.waitKey.2, none⟩ := by
  obtain ⟨x, hfetch, hturn⟩ | ⟨-, notices, hhost, -⟩ := turn_on_terminal m t
  · rw [hturn] at h
    exact ⟨x, hfetch, by rw [hturn, t.hears_waitKey.2.2 h]⟩
  · rw [hhost, (keyboard_foldl_deliver notices t).1] at h
    exact absurd h t.keyboard.not_tookQuit_self

/-! ## Timers -/

theorem elapsed_foldl_deliver (notices : List Notice) (t : Terminal) :
    (notices.foldl Notice.deliver t).timers.elapsed = t.timers.elapsed := by
  induction notices generalizing t with
  | nil => rfl
  | cons notice notices ih =>
    have hnotice : (notice.deliver t).timers.elapsed = t.timers.elapsed := by
      cases notice <;> rfl
    exact (ih _).trans hnotice

/-- The seconds since the last tick are none of a machine's business. -/
theorem elapsed_turn (m : Machine) (t : Terminal) :
    (m.turn t).host.timers.elapsed = t.timers.elapsed := by
  obtain ⟨x, -, hturn⟩ | ⟨-, notices, hhost, -⟩ := turn_on_terminal m t
  · rw [hturn]
    change t.waitKey.2.timers.elapsed = _
    rw [waitKey_eq]
    rfl
  · rw [hhost, elapsed_foldl_deliver]

theorem timers_present (t : Terminal) : t.present.2.timers = t.timers := by
  have hpoll : t.poll.timers = t.timers := by rw [poll_eq]
  obtain ⟨cause, -, heq⟩ | ⟨cause, output, -, heq, -⟩ | ⟨output, -, heq, -⟩ := t.present_cases
  · rw [heq]
  · rw [heq]
    exact hpoll
  · rw [heq]
    exact hpoll

end Terminal
end Chip8
