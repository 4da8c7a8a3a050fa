import UpdateVault.Proofs.Partition.PowerLoss

/-!
# Acknowledged calls

A partition that goes on after a loss of power keeps its table in memory, and a torn image in its
target bank. A later call that commits erases that image, so its table is what the next mount
finds. A call that succeeds without a commit, as it writes what is in memory already, leaves the
image there: the next mount finds it if it is whole after all (`TornCommit.overtakes_iff`), and
then the table is not the acknowledged one (`mount_after_acknowledged`).
-/

namespace UpdateVault.Partition

open Bytes (erased)

variable {p p₀ q r : Partition FlashChip} {call : Call} {table : ItemTable}

/-! ## Sessions -/

/-- A commit that was cut off: its table, and how many bytes of the image were programmed. -/
structure TornCommit where
  items : ItemTable
  reach : Nat

/-- What happens to a mounted partition: calls, and chips told to lose their power. -/
inductive Step
  | call (call : Call)
  | tear (keep : Nat)
  deriving DecidableEq, Repr

/-- A mounted partition, and the last of its commits if that was cut off. -/
structure Session where
  partition : Partition FlashChip
  torn : Option TornCommit

namespace Session

def step (s : Session) : Step → Session
  | .tear keep =>
    { s with partition := s.partition.withDevice (s.partition.device.tearNext keep) }
  | .call call =>
    match call.commits? s.partition, call.run s.partition with
    | none, _ => { s with partition := call.after s.partition }
    | some _, .ok () q => { partition := q, torn := none }
    | some table, .error _ q => {
        partition := q
        torn := some ⟨table, s.partition.device.reach (s.partition.nextImage table)⟩ }

/-- The session on a partition that was just mounted. -/
def run (p : Partition FlashChip) (steps : List Step) : Session :=
  steps.foldl step { partition := p, torn := none }

end Session

namespace TornCommit

/-- The bytes that a torn commit leaves in the target bank. -/
def bytes (t : TornCommit) (p : Partition FlashChip) : Bytes :=
  Bank.torn (p.sequence + 1) t.items.encode t.reach p.bankLength

/-- A torn commit that the next mount prefers to the table in memory. -/
def Overtakes (t : TornCommit) (p : Partition FlashChip) : Prop :=
  ∃ c, Bank.ofBytes? (t.bytes p) = some c ∧ p.TakesOver c ∧ c.items ≠ p.items

/-- A commit of another table that was cut off is all there is in the target bank. -/
structure Left (t : TornCommit) (p : Partition FlashChip) : Prop where
  stale : p.stale = Bank.ofBytes? (t.bytes p)
  ne : t.items ≠ p.items
  fits : t.items.encode.length ≤ p.maxPayload
  cut : t.reach < Bank.headerLength + t.items.encode.length

/-- The bytes of the image that were not programmed are erased ones. -/
def LacksErased (t : TornCommit) (p : Partition FlashChip) : Prop :=
  (p.nextImage t.items).drop t.reach
    = erased (Bank.headerLength + t.items.encode.length - t.reach)

instance (t : TornCommit) (p : Partition FlashChip) : Decidable (t.LacksErased p) :=
  inferInstanceAs (Decidable (_ = _))

theorem overtakes_of_lacksErased {t : TornCommit} (h : p.Sound) (hleft : t.Left p)
    (hdrop : t.LacksErased p) : t.Overtakes p := by
  have hfit := headerLength_add_le h.banks hleft.fits
  obtain ⟨tail, htail⟩ := (Bank.torn_eq_iff (Nat.le_of_lt hleft.cut) hfit).2 hdrop
  refine ⟨⟨p.sequence + 1, t.items⟩, ?_, takesOver_succ p t.items, hleft.ne⟩
  rw [bytes, htail]
  exact h.ofBytes?_nextImage hleft.fits tail

/-- **A torn commit overtakes if and only if nothing but erased bytes is missing from it**, unless
its bank passes the checksum by accident. -/
theorem overtakes_iff {t : TornCommit} (h : p.Sound) (hsmall : p.maxPayload < 0xFF000000)
    (hleft : t.Left p) (honest : Bank.Honest t.items.encode (t.bytes p)) :
    t.Overtakes p ↔ t.LacksErased p := by
  refine ⟨?_, overtakes_of_lacksErased h hleft⟩
  rintro ⟨c, hc, -, -⟩
  have hfit := headerLength_add_le h.banks hleft.fits
  obtain ⟨held, hpass⟩ := Bank.passing?_of_ofBytes? hc
  rw [honest held hpass] at hpass
  exact (Bank.torn_eq_iff (Nat.le_of_lt hleft.cut) hfit).1
    (Bank.torn_of_passing hleft.cut hfit hsmall hpass)

end TornCommit

/-! ## The invariant of a session -/

namespace Session

variable {s : Session}

/-- The target bank holds nothing that a mount prefers, or what a torn commit has left. -/
structure Consistent (s : Session) : Prop where
  sound : s.partition.Sound
  stale : s.torn = none → ∀ c, s.partition.stale = some c → ¬ s.partition.TakesOver c
  left : ∀ t, s.torn = some t → t.Left s.partition

theorem step_of_none (hcommits : call.commits? s.partition = none) :
    s.step (.call call) = s := by
  have hafter := Call.after_of_none hcommits
  simp only [step, hcommits, hafter]

/-- A commit completes, or is cut off. -/
theorem Consistent.step_of_some (h : s.Consistent)
    (hcommits : call.commits? s.partition = some table) :
    call.run s.partition = .ok () (s.partition.committed table) ∧
        s.step (.call call) = ⟨s.partition.committed table, none⟩ ∨
      ∃ k < (s.partition.nextImage table).length,
        call.run s.partition
          = .error (.io .powerLost) (s.partition.cutOff ((s.partition.nextImage table).take k)) ∧
        s.step (.call call)
          = ⟨s.partition.cutOff ((s.partition.nextImage table).take k), some ⟨table, k⟩⟩ := by
  have hfit := (Call.commits?_eq_some_iff.1 hcommits).2.2
  have hrun := Call.run_of_some hcommits
  rcases Nat.lt_or_ge (s.partition.device.reach (s.partition.nextImage table))
    (s.partition.nextImage table).length with hreach | hreach
  · have hcut := hrun.trans (commit_of_lt h.sound hfit hreach)
    exact .inr ⟨_, hreach, hcut, by simp only [step, hcommits, hcut]⟩
  · have hdone := hrun.trans (commit_of_ge h.sound hfit hreach)
    exact .inl ⟨hdone, by simp only [step, hcommits, hdone]⟩

theorem Consistent.step (h : s.Consistent) (step : Step) : (s.step step).Consistent := by
  cases step with
  | tear keep =>
    -- a loss of power that is to come changes no byte
    have hsound : (s.partition.withDevice (s.partition.device.tearNext keep)).Sound :=
      h.sound.withDevice (h.sound.banks.of_length_eq rfl rfl) rfl
    refine ⟨hsound, h.stale, fun t ht => ?_⟩
    obtain ⟨hstale, hne, hfits, hcut⟩ := h.left t ht
    exact ⟨hstale, hne, hfits, hcut⟩
  | call call =>
    cases hcommits : call.commits? s.partition with
    | none =>
      rw [step_of_none hcommits]
      exact h
    | some table =>
      obtain ⟨-, hne, hfit⟩ := Call.commits?_eq_some_iff.1 hcommits
      rcases h.step_of_some hcommits with ⟨-, hstep⟩ | ⟨k, hk, -, hstep⟩
      · -- the commit erases what a torn one has left
        rw [hstep]
        have hmount := h.sound.mount_committed hfit
        refine ⟨h.sound.committed hfit, fun _ => ?_, fun t ht => by cases ht⟩
        exact (h.sound.committed hfit).mount_eq_self_iff.1 hmount
      · have hlen := nextImage_length_le h.sound.banks hfit
        have htake : ((s.partition.nextImage table).take k).length ≤ s.partition.bankLength := by
          rw [List.length_take]
          omega
        have hbank := h.sound.bankBytes_cutOff hfit (Nat.le_of_lt hk)
        rw [nextImage, Bank.length_image] at hk
        rw [hstep]
        refine ⟨h.sound.cutOff htake, fun hnone => (by cases hnone), fun t ht => ?_⟩
        cases ht
        exact ⟨congrArg Bank.ofBytes? hbank, hne, hfit, hk⟩

theorem Consistent.foldl (h : s.Consistent) (steps : List Step) :
    (steps.foldl Session.step s).Consistent := by
  induction steps generalizing s with
  | nil => exact h
  | cons step rest ih => exact ih (h.step step)

theorem consistent_run (hp : p.Sound) (hmount : mount p.device = .ok p) (steps : List Step) :
    (run p steps).Consistent :=
  Consistent.foldl ⟨hp, fun _ => hp.mount_eq_self_iff.1 hmount, fun _ ht => by cases ht⟩ steps

/-- The next mount shows the table in memory unless a torn commit overtakes it. -/
theorem Consistent.mount (h : s.Consistent) :
    ∃ r, mount s.partition.device = .ok r ∧
      (r.items = s.partition.items ↔ ¬ ∃ t, s.torn = some t ∧ t.Overtakes s.partition) := by
  cases htorn : s.torn with
  | none =>
    refine ⟨s.partition, h.sound.mount_eq_self_iff.2 (h.stale htorn), fun _ => ?_, fun _ => rfl⟩
    rintro ⟨t, ht, -⟩
    cases ht
  | some t =>
    refine ⟨_, h.sound.mount_eq, ?_⟩
    have hstale := (h.left t htorn).stale
    have hovertakes : (∃ t', some t = some t' ∧ t'.Overtakes s.partition)
        ↔ t.Overtakes s.partition := by simp
    rw [hovertakes, hstale, TornCommit.Overtakes]
    cases hc : Bank.ofBytes? (t.bytes s.partition) with
    | none => simp [remounted]
    | some c =>
      by_cases htakes : s.partition.TakesOver c
      · simp [remounted, htakes]
      · simp [remounted, htakes]

end Session

/-! ## What an acknowledgement is worth -/

/-- **What an acknowledged call has left in memory is what the next mount shows, but for one
case.** The call committed nothing, and the commit before it that was cut off overtakes. It does so
if it lacks nothing but erased bytes, and only then, unless its bank passes the checksum by
accident. -/
theorem mount_after_acknowledged {image : Bytes} {sectorSize : Nat}
    (hmount : mount (FlashChip.ofImage image sectorSize) = .ok p₀)
    (hsmall : p₀.maxPayload < 2 ^ 32) (steps : List Step)
    (hrun : call.run (Session.run p₀ steps).partition = .ok () q) :
    (∃ r, mount q.device = .ok r ∧
      (r.items = q.items ↔ ¬ (call.commits? (Session.run p₀ steps).partition = none ∧
        ∃ t, (Session.run p₀ steps).torn = some t ∧
          t.Overtakes (Session.run p₀ steps).partition)) ∧
      (r.items = q.items → call.Visible r)) ∧
    ∀ t, (Session.run p₀ steps).torn = some t →
      (t.LacksErased (Session.run p₀ steps).partition →
        t.Overtakes (Session.run p₀ steps).partition) ∧
      ((Session.run p₀ steps).partition.maxPayload < 0xFF000000 →
        Bank.Honest t.items.encode (t.bytes (Session.run p₀ steps).partition) →
        (t.Overtakes (Session.run p₀ steps).partition ↔
          t.LacksErased (Session.run p₀ steps).partition)) := by
  obtain ⟨hdevice, hsound⟩ := sound_of_mount hmount hsmall
  have h := Session.consistent_run hsound (hdevice ▸ hmount) steps
  generalize Session.run p₀ steps = s at *
  refine ⟨?_, fun t ht => ⟨TornCommit.overtakes_of_lacksErased h.sound (h.left t ht),
    fun hroom honest => TornCommit.overtakes_iff h.sound hroom (h.left t ht) honest⟩⟩
  cases hcommits : call.commits? s.partition with
  | none =>
    obtain ⟨rfl, happlied⟩ := Call.applied_of_none hcommits hrun
    obtain ⟨r, hr, hitems⟩ := h.mount
    refine ⟨r, hr, ?_, fun heq => Call.visible_of_applied (heq ▸ happlied)⟩
    rw [hitems]
    simp
  | some table =>
    obtain ⟨happlied, -, hfit⟩ := Call.commits?_eq_some_iff.1 hcommits
    have hq : q = s.partition.committed table := by
      rcases h.step_of_some hcommits with ⟨hok, -⟩ | ⟨k, -, herror, -⟩
      · rw [hok] at hrun
        cases hrun
        rfl
      · rw [herror] at hrun
        cases hrun
    subst hq
    refine ⟨_, h.sound.mount_committed hfit, ?_, fun _ => Call.visible_of_applied happlied⟩
    simp

/-- A key is written; the commit of another one loses its last byte, which is an erased one. -/
def lossy : List Step :=
  [.call (.write "key.der" [1]), .tear 26, .call (.write "key.der" [0xFF])]

theorem run_lossy :
    (Call.write "key.der" [1]).run (Session.run blank lossy).partition
      = .ok () (Session.run blank lossy).partition :=
  Call.run_write_same (Item.ofName?_name .privateKey) (by decide +kernel)

/-- Of two more writes the one that commits is shown by the next mount; the other one, of what is
in memory, is not. -/
theorem mount_after_acknowledged_lossy :
    (∃ r, mount (Session.run blank lossy).partition.device = .ok r ∧
      r.items ≠ (Session.run blank lossy).partition.items) ∧
    ∃ q r, (Call.write "key.der" [2]).run (Session.run blank lossy).partition = .ok () q ∧
      mount q.device = .ok r ∧ r.items = q.items ∧ r.read "key.der" = .ok [2] := by
  constructor
  · obtain ⟨⟨r, hr, hkept, -⟩, htorn⟩ :=
      mount_after_acknowledged mount_blank (by decide) lossy run_lossy
    have hlacks : ∃ t, (Session.run blank lossy).torn = some t ∧
        t.LacksErased (Session.run blank lossy).partition :=
      ⟨⟨SortedMap.empty.insert Item.privateKey.id [0xFF], 26⟩, rfl, by decide +kernel⟩
    obtain ⟨t, ht, hlacks⟩ := hlacks
    refine ⟨r, hr, fun heq => hkept.1 heq ⟨by decide +kernel, t, ht, (htorn t ht).1 hlacks⟩⟩
  · have hok : (Call.write "key.der" [2]).run.run' (Session.run blank lossy).partition
        = some () := by decide +kernel
    obtain ⟨q, hrun⟩ := Update.exists_ok_of_run' hok
    obtain ⟨⟨r, hr, hkept, hvisible⟩, -⟩ :=
      mount_after_acknowledged mount_blank (by decide) lossy hrun
    have heq := hkept.2 fun h => absurd h.1 (by decide +kernel)
    exact ⟨q, r, hrun, hr, heq, hvisible heq⟩

/-- The first key is written once more, which is acknowledged; but the chip mounts to the second
one. -/
theorem acknowledged_write_lost :
    ∃ q r, (Call.write "key.der" [1]).run (Session.run blank lossy).partition = .ok () q ∧
      mount q.device = .ok r ∧ q.read "key.der" = .ok [1] ∧ r.read "key.der" = .ok [0xFF] ∧
      r.items ≠ q.items := by
  have hmem : (Session.run blank lossy).partition.read "key.der" = .ok [1] := by decide +kernel
  have hread : (mount (Session.run blank lossy).partition.device).bind (·.read "key.der")
      = .ok [0xFF] := by decide +kernel
  cases hmount : mount (Session.run blank lossy).partition.device with
  | error e =>
    rw [hmount] at hread
    cases hread
  | ok r =>
    rw [hmount] at hread
    replace hread : r.read "key.der" = .ok [0xFF] := hread
    refine ⟨_, r, run_lossy, hmount, hmem, hread, fun heq => ?_⟩
    have hsame : r.read "key.der" = (Session.run blank lossy).partition.read "key.der" := by
      rw [read, heq]
      rfl
    rw [hmem] at hsame
    rw [hsame] at hread
    exact absurd hread (by decide)

end UpdateVault.Partition
