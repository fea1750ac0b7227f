import Chip8.Proofs.Picture

/-!
# Failures to send

What a terminal is to show is sent with a flush, or to make room for a piece that does not fit. Both
may fail, and both are counted, so that the failures between two states of an output can be told
from the counts. Every error of the output is one of them, and so is every error of a frame that was
not kept from before.
-/
namespace Chip8

namespace Output

variable {o o' o₁ o₂ : Output} {cause : OsError}

/-- One output comes from another by queueing pieces and sending them. -/
structure Leads (o o' : Output) : Prop where
  outcome : o'.outcome = o.outcome
  spillOutcome : o'.spillOutcome = o.spillOutcome
  flushes : o.flushes ≤ o'.flushes
  spills : o.spills ≤ o'.spills

theorem Leads.refl (o : Output) : o.Leads o :=
  ⟨rfl, rfl, Nat.le_refl _, Nat.le_refl _⟩

theorem Leads.trans (h : o.Leads o₁) (h' : o₁.Leads o₂) : o.Leads o₂ where
  outcome := h'.outcome.trans h.outcome
  spillOutcome := h'.spillOutcome.trans h.spillOutcome
  flushes := Nat.le_trans h.flushes h'.flushes
  spills := Nat.le_trans h.spills h'.spills

theorem leads_push (o : Output) (piece : Piece) : o.Leads (o.push piece).2 := by
  rw [push]
  split
  · exact ⟨rfl, rfl, Nat.le_refl _, Nat.le_refl _⟩
  · split <;> exact ⟨rfl, rfl, Nat.le_refl _, Nat.le_succ _⟩

theorem leads_queue (o : Output) (pieces : List Piece) : o.Leads (o.queue pieces).2 := by
  induction pieces generalizing o with
  | nil => exact .refl o
  | cons piece rest ih =>
    have hfirst := o.leads_push piece
    rw [queue]
    rcases hpush : o.push piece with ⟨_ | cause, after⟩
    · rw [hpush] at hfirst
      exact hfirst.trans (ih after)
    · rw [hpush] at hfirst
      exact hfirst

/-- With nothing queued, a flush does nothing. -/
theorem flush_of_queued (h : o.queued = #[]) : o.flush = (none, o) := by
  rw [flush, h]
  rfl

theorem leads_flush (o : Output) : o.Leads o.flush.2 := by
  rw [flush]
  split
  · exact .refl o
  · split <;> exact ⟨rfl, rfl, Nat.le_succ _, Nat.le_refl _⟩

/-- On the way from one output to another, a flush or an attempt to make room failed. -/
def FailedWith (o o' : Output) (cause : OsError) : Prop :=
  (∃ n, o.flushes ≤ n ∧ n < o'.flushes ∧ o.outcome n = some cause) ∨
    ∃ n, o.spills ≤ n ∧ n < o'.spills ∧ o.spillOutcome n = some cause

/-- Where nothing is sent, nothing fails. -/
theorem not_failedWith (hflushes : o'.flushes = o.flushes) (hspills : o'.spills = o.spills) :
    ¬ o.FailedWith o' cause := by
  rintro (⟨n, hle, hlt, -⟩ | ⟨n, hle, hlt, -⟩) <;> omega

/-- If room had to be made once, what failed is that. -/
theorem failedWith_iff_spill (hflushes : o'.flushes = o.flushes)
    (hspills : o'.spills = o.spills + 1) :
    o.FailedWith o' cause ↔ o.spillOutcome o.spills = some cause := by
  constructor
  · rintro (⟨n, hle, hlt, -⟩ | ⟨n, hle, hlt, hcause⟩)
    · omega
    · obtain rfl : n = o.spills := by omega
      exact hcause
  · exact fun hcause => .inr ⟨o.spills, Nat.le_refl _, by omega, hcause⟩

/-- A failure on a part of a way is one on the whole of it. -/
theorem FailedWith.extend_left (h : o₁.FailedWith o' cause) (hleads : o.Leads o₁) :
    o.FailedWith o' cause := by
  obtain ⟨n, hle, hlt, hcause⟩ | ⟨n, hle, hlt, hcause⟩ := h
  · exact .inl ⟨n, Nat.le_trans hleads.flushes hle, hlt, hleads.outcome ▸ hcause⟩
  · exact .inr ⟨n, Nat.le_trans hleads.spills hle, hlt, hleads.spillOutcome ▸ hcause⟩

theorem FailedWith.extend_right (h : o.FailedWith o₁ cause) (hleads : o₁.Leads o') :
    o.FailedWith o' cause := by
  obtain ⟨n, hle, hlt, hcause⟩ | ⟨n, hle, hlt, hcause⟩ := h
  · exact .inl ⟨n, hle, Nat.lt_of_lt_of_le hlt hleads.flushes, hcause⟩
  · exact .inr ⟨n, hle, Nat.lt_of_lt_of_le hlt hleads.spills, hcause⟩

/-- A failure on a way that goes by another output is on one of its two parts. -/
theorem FailedWith.split (h : o.FailedWith o' cause) (hleads : o.Leads o₁) :
    o.FailedWith o₁ cause ∨ o₁.FailedWith o' cause := by
  obtain ⟨n, hle, hlt, hcause⟩ | ⟨n, hle, hlt, hcause⟩ := h
  · obtain hbefore | hafter := Nat.lt_or_ge n o₁.flushes
    · exact .inl (.inl ⟨n, hle, hbefore, hcause⟩)
    · exact .inr (.inl ⟨n, hafter, hlt, hleads.outcome ▸ hcause⟩)
  · obtain hbefore | hafter := Nat.lt_or_ge n o₁.spills
    · exact .inl (.inr ⟨n, hle, hbefore, hcause⟩)
    · exact .inr (.inr ⟨n, hafter, hlt, hleads.spillOutcome ▸ hcause⟩)

theorem failedWith_push_iff {piece : Piece} :
    o.FailedWith (o.push piece).2 cause ↔ (o.push piece).1 = some cause := by
  by_cases hfits : Piece.sizeOf o.queued + piece.size ≤ capacity
  · rw [push, if_pos hfits]
    exact iff_of_false (not_failedWith rfl rfl) (Option.some_ne_none cause).symm
  · rw [push, if_neg hfits]
    cases hspill : o.spillOutcome o.spills
    all_goals
      refine (failedWith_iff_spill ?_ ?_).trans ?_
      · rfl
      · rfl
      · rw [hspill]

/-- Queueing pieces reports what failed, and nothing else. -/
theorem failedWith_queue_iff {pieces : List Piece} :
    o.FailedWith (o.queue pieces).2 cause ↔ (o.queue pieces).1 = some cause := by
  induction pieces generalizing o with
  | nil => exact iff_of_false (not_failedWith rfl rfl) (Option.some_ne_none cause).symm
  | cons piece rest ih =>
    have hleads := o.leads_push piece
    have hpiece : o.FailedWith (o.push piece).2 cause ↔ (o.push piece).1 = some cause :=
      failedWith_push_iff
    rw [queue]
    rcases hpush : o.push piece with ⟨_ | own, after⟩ <;> rw [hpush] at hleads hpiece
    · rw [← ih]
      constructor
      · intro hfailed
        obtain hfirst | hrest := hfailed.split hleads
        · cases hpiece.mp hfirst
        · exact hrest
      · exact fun hfailed => hfailed.extend_left hleads
    · exact hpiece

theorem failedWith_flush (h : o.flush.1 = some cause) : o.FailedWith o.flush.2 cause := by
  rw [flush] at h ⊢
  split at h
  · cases h
  · next hqueued =>
    rw [if_neg hqueued]
    split at h
    · next own hflush =>
      cases h
      exact .inl ⟨o.flushes, Nat.le_refl _, Nat.lt_succ_self _, hflush⟩
    · cases h

end Output

namespace Terminal

/-- The bell is queued if there is room for it or room can be made. -/
theorem ring_cases (t : Terminal) :
    (∃ cause output, t.ring = (some cause, { t with output }) ∧
        t.output.FailedWith output cause) ∨
      ∃ output, t.ring = (none, { t with output }) ∧ t.output.Leads output := by
  rw [ring]
  split
  · cases hqueue : (t.output.queue [.bell]).1 with
    | some cause => exact .inl ⟨cause, _, by rw [← hqueue], Output.failedWith_queue_iff.mpr hqueue⟩
    | none => exact .inr ⟨_, by rw [← hqueue], t.output.leads_queue [.bell]⟩
  · exact .inr ⟨t.output, rfl, .refl _⟩

/-- Nothing waits any more after a flush, unless it fails. -/
theorem refresh_cases (t : Terminal) :
    (∃ cause output, t.refresh = (.error (.io cause), { t with output }) ∧
        t.output.FailedWith output cause) ∨
      ∃ output, t.refresh = (.ok !t.quit, { t with output, dirty := false }) ∧
        output.queued = #[] := by
  have hfailed (cause : OsError) : t.output.flush.1 = some cause →
      t.output.FailedWith t.output.flush.2 cause := Output.failedWith_flush
  have hqueued : t.output.flush.1 = none → t.output.flush.2.queued = #[] := Output.queued_flush
  rw [refresh]
  rcases hflush : t.output.flush with ⟨_ | cause, output⟩ <;> rw [hflush] at hfailed hqueued
  · exact .inr ⟨output, rfl, hqueued rfl⟩
  · exact .inl ⟨cause, output, rfl, hfailed cause rfl⟩

/-- A frame reports an error that was kept, or it reads the keys. Then it fails because something
could not be sent, or it shows all that was drawn and tells whether the user has asked to stop. -/
theorem present_cases (t : Terminal) :
    (∃ cause, t.pending = some cause ∧
        t.present = (.error (.io cause), { t with pending := none })) ∨
      (∃ cause output, t.pending = none ∧
        t.present = (.error (.io cause), { t.poll with output }) ∧
        t.output.FailedWith output cause) ∨
      ∃ output, t.pending = none ∧
        t.present = (.ok !t.poll.quit, { t.poll with output, dirty := false }) ∧
        output.queued = #[] := by
  rw [present]
  cases t.pending with
  | some cause => exact .inl ⟨cause, rfl, rfl⟩
  | none =>
    apply Or.inr
    rw [← t.output_poll]
    obtain ⟨cause, output, hring, hfailed⟩ | ⟨rung, hring, hleads⟩ := t.poll.ring_cases
    · exact .inl ⟨cause, output, rfl, by rw [hring], hfailed⟩
    · rw [hring]
      obtain ⟨cause, output, hrefresh, hfailed⟩ | ⟨output, hrefresh, hqueued⟩ :=
        refresh_cases { t.poll with output := rung }
      · exact .inl ⟨cause, output, rfl, hrefresh, hfailed.extend_left hleads⟩
      · exact .inr ⟨output, rfl, hrefresh, hqueued⟩

end Terminal
end Chip8
