import Chip8.Proofs.Frame

/-!
# What a host is told

A host learns of the display from notices alone. `Effect.Tells` says that they are enough: what
becomes of the display under an instruction is what the notices make of it, and each plotted pixel
lies on the display and changes its value. A `Session` is a machine and its host from the start on;
a host that keeps up with single notices keeps up with the display through every session.
-/
namespace Chip8

namespace Notice

/-- The display after a notice, for one who has only the notices to go by. -/
def redraw (d : Display) : Notice → Display
  | clear => .dark
  | plot dot => d.put dot.x dot.y dot.lit
  | setDelay _ | setSound _ => d

/-- A pixel that is plotted lies on the display and has another value than before. -/
def Flips (d : Display) : Notice → Prop
  | plot dot => dot.x < 64 ∧ dot.y < 32 ∧ dot.lit = !d.lit dot.x dot.y
  | clear | setDelay _ | setSound _ => True

/-- Each notice of a list flips a pixel of the display that those before it have left. -/
def FlipInTurn (d : Display) : List Notice → Prop
  | [] => True
  | notice :: rest => notice.Flips d ∧ FlipInTurn (notice.redraw d) rest

end Notice

namespace Effect

/-- The notices of an effect have nothing to do with the display. -/
def Mute : Effect → Prop
  | proceed notices _ =>
    ∀ d, Notice.FlipInTurn d notices ∧ notices.foldl Notice.redraw d = d
  | readDelay _ | testKey _ _ | waitKey _ => True

/-- The notices of an effect on a machine with the display `d` make of it the display of the machine
that goes on. Where an answer of the host is needed, the display stays as it is. -/
def Tells (d : Display) : Effect → Prop
  | proceed notices next =>
    Notice.FlipInTurn d notices ∧ notices.foldl Notice.redraw d = next.display
  | effect => effect.Ensures fun next => next.display = d

theorem mute_of_map_quiet {outcome : Except Fault Machine} {effect : Effect}
    (h : outcome.map .quiet = .ok effect) : effect.Mute := by
  cases outcome with
  | error cause => cases h
  | ok next =>
    cases h
    exact fun d => ⟨trivial, rfl⟩

/-- An effect that does not concern the display tells the truth about it. -/
theorem Mute.tells {effect : Effect} {d : Display} (hmute : effect.Mute)
    (hdisplay : effect.Ensures fun next => next.display = d) : effect.Tells d := by
  cases effect with
  | proceed notices next =>
    obtain ⟨hflips, hredraw⟩ := hmute d
    exact ⟨hflips, hredraw.trans (Eq.symm hdisplay)⟩
  | readDelay resume | testKey key resume | waitKey resume => exact hdisplay

end Effect

/-! ## Sprites -/

/-- Pixels that are reported one after the other, each with its new value, are inverted at once. -/
theorem Notice.redraw_flips {ps : List (Nat × Nat)} (hnodup : ps.Nodup)
    (hon : ∀ p ∈ ps, p.1 < 64 ∧ p.2 < 32) (d : Display) :
    FlipInTurn d (ps.map fun p => plot ⟨p.1, p.2, !d.lit p.1 p.2⟩) ∧
      (ps.map fun p => plot ⟨p.1, p.2, !d.lit p.1 p.2⟩).foldl redraw d = d.invert ps := by
  induction ps generalizing d with
  | nil => exact ⟨trivial, d.invert_nil.symm⟩
  | cons p ps ih =>
    obtain ⟨hp, hnodup⟩ := List.nodup_cons.mp hnodup
    have honp := hon p (List.mem_cons_self ..)
    -- the reports still to come speak of pixels that this one leaves alone
    have hrest : (ps.map fun q => plot ⟨q.1, q.2, !d.lit q.1 q.2⟩) =
        ps.map fun q => plot ⟨q.1, q.2, !(d.put p.1 p.2 (!d.lit p.1 p.2)).lit q.1 q.2⟩ := by
      apply List.map_congr_left
      intro q hq
      rw [Display.lit_put_of_notMem honp hp _ q hq]
    have htail := ih hnodup (fun q hq => hon q (List.mem_cons_of_mem p hq))
      (d.put p.1 p.2 (!d.lit p.1 p.2))
    rw [Display.invert_put honp hp] at htail
    rw [List.map_cons, hrest]
    exact ⟨⟨⟨honp.1, honp.2, rfl⟩, htail.1⟩, htail.2⟩

namespace Machine

variable {m : Machine}

theorem tells_drawEffect {x y : Register} {height : Fin 16} {effect : Effect}
    (h : m.drawEffect x y height = .ok effect) : effect.Tells m.display := by
  obtain ⟨-, rfl⟩ := check_eq_ok.mp h
  exact Notice.redraw_flips (World.nodup_covered m x y height)
    (fun _ hp => World.on_of_mem_covered hp) m.display

/-! ## Instructions -/

/-- An instruction that does not draw has notices that do not concern the display. -/
theorem mute_effectOf {i : Instruction} {effect : Effect} (hdraws : i.draws = false)
    (h : m.effectOf i = .ok effect) : effect.Mute := by
  cases i with
  | clearScreen | draw x y height => cases hdraws
  | ret | jump target | call target | glyph x | decimal x | store x | load x =>
    exact Effect.mute_of_map_quiet h
  | skipIfKey x | skipUnlessKey x =>
    rw [effectOf, keyEffect] at h
    split at h <;> cases h
    trivial
  | readDelay x | waitKey x =>
    cases h
    trivial
  | setDelay x | setSound x =>
    cases h
    exact fun d => ⟨⟨trivial, trivial⟩, rfl⟩
  | skipIfByte x k | skipUnlessByte x k | skipIfEqual x y | skipUnlessEqual x y | setByte x k
  | addByte x k | arith op x y | setIndex place | jumpOffset target | random x mask
  | addIndex x =>
    cases h
    exact fun d => ⟨trivial, rfl⟩

/-- Every instruction tells the truth about the display. -/
theorem tells_effectOf {i : Instruction} {effect : Effect} (h : m.effectOf i = .ok effect) :
    effect.Tells m.display := by
  cases hdraws : i.draws with
  | false =>
    exact (mute_effectOf hdraws h).tells
      ((ensures_frame h).mono fun next hframe => hframe.display hdraws)
  | true =>
    cases i with
    | clearScreen =>
      cases h
      exact ⟨⟨trivial, trivial⟩, rfl⟩
    | draw x y height => exact tells_drawEffect h
    | _ => cases hdraws

theorem tells_effect {effect : Effect} (h : m.effect = .ok effect) : effect.Tells m.display := by
  obtain ⟨i, -, hi⟩ := exists_fetches h
  exact tells_effectOf (m := m.pass) hi

end Machine

/-! ## Sessions -/

/-- A machine and its host from the start on. The machine takes steps, and the surroundings act on
the host in between. -/
inductive Session {H : Type} [Host H] (fresh : H → Prop) (acts : H → H → Prop) :
    Machine → H → Prop where
  | boot {dialect : Dialect} {entropy : Entropy} {program : List Byte} {m : Machine} {host : H} :
    Machine.boot dialect entropy program = .ok m → fresh host → Session fresh acts m host
  | step {m : Machine} {host : H} {turn : Turn H} :
    Session fresh acts m host → m.step host = .ok turn → Session fresh acts turn.machine turn.host
  | act {m : Machine} {host host' : H} :
    Session fresh acts m host → acts host host' → Session fresh acts m host'

/-- What a relation of a host to a display has to satisfy, call by call, so that it holds of the
display of the machine. -/
structure KeepsUp {H : Type} [Host H] (fresh : H → Prop) (acts : H → H → Prop)
    (shows : H → Display → Prop) : Prop where
  fresh : ∀ host, fresh host → shows host .dark
  acts : ∀ host host' d, acts host host' → shows host d → shows host' d
  notice : ∀ notice host d, Notice.Flips d notice → shows host d →
    shows (notice.deliver host) (notice.redraw d)
  delay : ∀ host d, shows host d → shows (Host.delay host).2 d
  keyDown : ∀ key host d, shows host d → shows (Host.keyDown key host).2 d
  waitKey : ∀ host d, shows host d → shows (Host.waitKey host).2 d

section Session

variable {H : Type} [Host H] {fresh : H → Prop} {acts : H → H → Prop} {shows : H → Display → Prop}
  {m : Machine} {host : H}

theorem KeepsUp.notices (hk : KeepsUp fresh acts shows) {notices : List Notice} {d : Display}
    (hflips : Notice.FlipInTurn d notices) (h : shows host d) :
    shows (notices.foldl Notice.deliver host) (notices.foldl Notice.redraw d) := by
  induction notices generalizing host d with
  | nil => exact h
  | cons notice rest ih => exact ih hflips.2 (hk.notice notice host d hflips.1 h)

/-- A host that keeps up with single calls keeps up with the display over an effect. -/
theorem KeepsUp.perform (hk : KeepsUp fresh acts shows) {effect : Effect} {d : Display} {host' : H}
    {next : Machine} (htells : effect.Tells d) (h : shows host d)
    (hperform : effect.perform host = (.ok next, host')) : shows host' next.display := by
  cases effect with
  | proceed notices m' =>
    cases hperform
    rw [← htells.2]
    exact hk.notices htells.1 h
  | readDelay resume =>
    cases hperform
    rw [htells]
    exact hk.delay host d h
  | testKey key resume =>
    cases hperform
    rw [htells]
    exact hk.keyDown key host d h
  | waitKey resume =>
    have hnext := congrArg Prod.fst hperform
    cases congrArg Prod.snd hperform
    rw [htells _ next hnext]
    exact hk.waitKey host d h

/-- A host that keeps up with single calls keeps up with the display over a turn, also over one that
raises a fault. -/
theorem KeepsUp.turn (hk : KeepsUp fresh acts shows) (h : shows host m.display) :
    shows (m.turn host).host (m.turn host).machine.display := by
  obtain ⟨cause, -, hturn⟩ | ⟨x, -, -, hturn⟩ | ⟨effect, next, host', heffect, hperform, hturn⟩ :=
    m.turn_cases host
  · rw [hturn]
    exact h
  · rw [hturn]
    exact hk.waitKey host m.display h
  · rw [hturn]
    exact hk.perform (Machine.tells_effect heffect) h hperform

namespace Session

theorem reachable (h : Session fresh acts m host) : m.Reachable := by
  induction h with
  | @boot dialect entropy program m host hboot _ =>
    exact ⟨[], .load (.new dialect entropy) hboot⟩
  | step _ hstep ih => exact ih.elim fun results hrun => ⟨_, .step hrun hstep⟩
  | act _ _ ih => exact ih

/-- While the machine runs, its next step ends, and it is the turn of its effect. -/
theorem step_eq_turn (h : Session fresh acts m host) (hstatus : m.status = .running) :
    m.step host = .ok (m.turn host) :=
  Machine.step_eq_turn hstatus h.reachable.sound.depth_le host

/-- A host that keeps up with single calls shows the display of the machine through every
session. -/
theorem shows_display (hk : KeepsUp fresh acts shows) (h : Session fresh acts m host) :
    shows host m.display := by
  induction h with
  | @boot dialect entropy program m host hboot hfresh =>
    have hdisplay : m.display = .dark := by
      obtain ⟨-, rfl⟩ := Machine.load_eq_ok.mp hboot
      rfl
    rw [hdisplay]
    exact hk.fresh host hfresh
  | @step m host turn hsession hstep ih =>
    obtain ⟨hstatus, -⟩ := hsession.reachable.sound.step hstep
    rw [hsession.step_eq_turn hstatus] at hstep
    cases hstep
    exact hk.turn ih
  | act _ hact ih => exact hk.acts _ _ _ hact ih

end Session

end Session
end Chip8
