import Chip8.Proofs.History
import Chip8.Proofs.Surfacing

/-!
# How long a key counts as held

A terminal is told of presses and never of releases. Each frame that reads the keys lets every key
go by one, and then takes hold anew of those that were pressed. So a key counts as held exactly if
one of the last three such frames, none of them older than the last wait, read a press of it; the
number that is kept for a key says how many of the three are left.
-/
namespace Chip8.Terminal

variable {start t : Terminal} {key : Key} {happening : Happening} {earlier : List Happening}
  {entry : Entry} {entries : List Entry}

/-- A press of the key was among the reports that were taken. -/
def Entry.Presses (entry : Entry) (keymap : Keymap) (key : Key) : Prop :=
  ∃ event ∈ entry.heard, event.key? keymap = some key

/-- The frames since the last wait that read the keys, the newest first. -/
def recentPolls (log : List Entry) : List Entry :=
  (since Entry.isWait log).filter Entry.polls

theorem recentPolls_of_wait (h : entry.isWait = true) : recentPolls (entry :: entries) = [] := by
  rw [recentPolls, since_of_kind h, List.filter_nil]

theorem recentPolls_of_polls (h : entry.polls = true) :
    recentPolls (entry :: entries) = entry :: recentPolls entries := by
  have hwait : entry.isWait = false := by
    obtain ⟨t, rfl⟩ := Entry.exists_of_isFrame (Bool.and_eq_true_iff.mp h).1
    rfl
  rw [recentPolls, since_of_not_kind hwait, List.filter_cons_of_pos h, recentPolls]

theorem recentPolls_of_other (hwait : entry.isWait = false) (hpolls : entry.polls = false) :
    recentPolls (entry :: entries) = recentPolls entries := by
  rw [recentPolls, since_of_not_kind hwait, List.filter_cons_of_neg (by simp [hpolls]), recentPolls]

/-! ## Single entries -/

/-- A press of a key takes hold of this key only. -/
theorem held_hear (t : Terminal) (event : InputEvent) (key : Key) :
    (t.hear event).held.get key =
      if event.key? t.keymap = some key then holdSpan else t.held.get key := by
  have hget (v : Vector Nat 16) : v.get key = v[key.val] := rfl
  cases event with
  | mouse | cursor => simp [hear, InputEvent.key?]
  | key press =>
    rw [hear, InputEvent.key?]
    cases press.key? t.keymap with
    | none => simp
    | some other => simp [hget, Vector.getElem_setIfInBounds, Fin.ext_iff]

theorem held_foldl_hear (events : List InputEvent) (t : Terminal) (key : Key) :
    (events.foldl hear t).held.get key =
      if ∃ event ∈ events, event.key? t.keymap = some key then holdSpan else t.held.get key := by
  induction events generalizing t with
  | nil => simp
  | cons event events ih =>
    have hkeymap : (t.hear event).keymap = t.keymap := by rw [hear_eq]
    rw [List.foldl_cons, ih, held_hear, hkeymap]
    by_cases hrest : ∃ event ∈ events, event.key? t.keymap = some key <;>
      by_cases hfirst : event.key? t.keymap = some key <;> simp [hrest, hfirst]

/-- Reading the keys lets every key go by one, and takes hold anew of those that were pressed. -/
theorem held_poll (t : Terminal) (key : Key) :
    t.poll.held.get key =
      if ∃ event ∈ t.keyboard.drain.1, event.key? t.keymap = some key then holdSpan
      else t.held.get key - 1 := by
  have htire : t.tire.held.get key = t.held.get key - 1 :=
    Vector.getElem_map (· - 1) key.isLt
  rw [← htire]
  exact held_foldl_hear t.keyboard.drain.1 { t.tire with keyboard := t.keyboard.drain.2 } key

/-- A frame that reads the keys takes the presses that are drained; what is lost is no press. -/
theorem presses_frame_iff (hpending : t.pending = none) :
    Entry.Presses ⟨t, .frame⟩ t.keymap key ↔
      ∃ event ∈ t.keyboard.drain.1, event.key? t.keymap = some key := by
  obtain ⟨lost, hheard, hlost⟩ := heard_frame hpending
  have hnone : ¬ ∃ event ∈ lost, event.key? t.keymap = some key := by
    rintro ⟨event, hmem, hkey⟩
    rw [hlost event hmem] at hkey
    cases hkey
  rw [Entry.Presses, hheard]
  simp only [List.mem_append, or_and_right, exists_or, hnone, or_false]

/-- What becomes of a key in a frame that reads the keys. -/
theorem held_of_polls (h : entry.polls = true) (key : Key) :
    entry.Presses entry.before.keymap key ∧ entry.after.held.get key = holdSpan ∨
      ¬ entry.Presses entry.before.keymap key ∧
        entry.after.held.get key = entry.before.held.get key - 1 := by
  obtain ⟨hframe, hpending⟩ := Bool.and_eq_true_iff.mp h
  obtain ⟨t, rfl⟩ := Entry.exists_of_isFrame hframe
  rw [Option.isNone_iff_eq_none] at hpending
  have hheld : t.present.2.held = t.poll.held := by
    obtain ⟨output, dirty, hpresent⟩ := present_of_polls hpending
    rw [hpresent]
  change _ ∧ t.present.2.held.get key = _ ∨ _ ∧ t.present.2.held.get key = _
  rw [presses_frame_iff hpending, hheld, held_poll]
  by_cases hdrained : ∃ event ∈ t.keyboard.drain.1, event.key? t.keymap = some key
  · exact .inl ⟨hdrained, if_pos hdrained⟩
  · exact .inr ⟨hdrained, if_neg hdrained⟩

/-- No key counts as held after a wait. -/
theorem held_of_wait (h : entry.isWait = true) (key : Key) : entry.after.held.get key = 0 := by
  obtain ⟨t, rfl⟩ := Entry.exists_of_isWait h
  change t.waitKey.2.held.get key = 0
  rw [waitKey_eq]
  exact Vector.getElem_replicate key.isLt

/-- Nothing else than a wait or such a frame changes what is held. -/
theorem held_of_other (hwait : entry.isWait = false) (hpolls : entry.polls = false) :
    entry.after.held = entry.before.held := by
  cases hframe : entry.isFrame with
  | false => exact (untouched hwait hframe).held
  | true =>
    obtain ⟨t, rfl⟩ := Entry.exists_of_isFrame hframe
    change t.present.2.held = t.held
    cases hpending : t.pending with
    | none =>
      rw [Entry.polls, hframe, hpending] at hpolls
      cases hpolls
    | some cause => rw [present_of_pending hpending]

/-! ## Logs -/

/-- More than `n` frames are left for a key exactly if it was pressed in one of the last `3 - n`. -/
theorem lt_held_iff (hstart : ∀ key, start.held.get key = 0) (happenings : List Happening)
    (n : Nat) : n < (after start happenings).held.get key ↔
      ∃ entry ∈ (recentPolls (log start happenings)).take (holdSpan - n),
        entry.Presses start.keymap key := by
  induction happenings generalizing n with
  | nil => simp [after, log, recentPolls, hstart key]
  | cons happening earlier ih =>
    rw [log]
    let entry : Entry := ⟨after start earlier, happening⟩
    have hkeymap : entry.before.keymap = start.keymap := keymap_after start earlier
    change n < entry.after.held.get key ↔
      ∃ e ∈ (recentPolls (entry :: log start earlier)).take (holdSpan - n),
        e.Presses start.keymap key
    cases hwait : entry.isWait with
    | true =>
      rw [recentPolls_of_wait hwait, held_of_wait hwait]
      simp
    | false =>
      cases hpolls : entry.polls with
      | false =>
        rw [recentPolls_of_other hwait hpolls, held_of_other hwait hpolls]
        exact ih n
      | true =>
        rw [recentPolls_of_polls hpolls]
        have hnext : holdSpan - (n + 1) = holdSpan - n - 1 := Nat.sub_add_eq ..
        obtain ⟨hpresses, hheld⟩ | ⟨hpresses, hheld⟩ := held_of_polls hpolls key
        all_goals rw [hkeymap] at hpresses
        · -- a press gives the key all of its frames again
          rw [hheld]
          cases hleft : holdSpan - n with
          | zero => simp [Nat.sub_eq_zero_iff_le.mp hleft]
          | succ left =>
            have hlt : n < holdSpan := Nat.lt_of_sub_eq_succ hleft
            simp [hlt, hpresses]
        · -- without one, a frame less is left than there was before
          have hless : n < entry.before.held.get key - 1 ↔ n + 1 < entry.before.held.get key :=
            Nat.lt_sub_iff_add_lt
          rw [hheld, hless, ih (n + 1), hnext]
          cases hleft : holdSpan - n with
          | zero => simp
          | succ left => simp [hpresses]

/-- A key counts as held, at every point of the history of a terminal, exactly if one of the last
three frames that read the keys since the last wait read a press of it. -/
theorem held_iff_pressed (keymap : Keymap) (keyboard : Keyboard)
    (outcome spillOutcome : Nat → Option OsError) (happenings : List Happening) (key : Key) :
    (Host.keyDown key (after (enterUnreliable keymap keyboard outcome spillOutcome)
        happenings)).1 = true ↔
      ∃ entry ∈ (recentPolls (log (enterUnreliable keymap keyboard outcome spillOutcome)
          happenings)).take 3,
        entry.Presses keymap key := by
  have hstart (key : Key) :
      (enterUnreliable keymap keyboard outcome spillOutcome).held.get key = 0 :=
    Vector.getElem_replicate key.isLt
  exact decide_eq_true_iff.trans (lt_held_iff hstart happenings 0)

end Chip8.Terminal
