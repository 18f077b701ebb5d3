import Jaos.Tasks.Proof.Effect

/-!
# Presses and the reader

A press is handed over in one variable, `press_code`, and one flag, `new_press`. `Presses` records the
presses that the handler has seen since the loop of a `readline` began and those that `get_char` has
returned. They agree, in order and without loss, as long as every press comes after `get_char` has read
the one before, and nobody else wakes the reader (`Timely`, `presses_in_order`). A press that comes between
`new_press = 0` and the return of `get_char` is returned twice, and the one before is lost
(`press_lost_and_doubled`).
-/

namespace Tasks

open Lib

/-- What the handler has seen and `get_char` has returned, since the loop began. -/
structure Presses where
  handled : List (BitVec 8)
  returned : List (BitVec 8)

/-- The record of the reader `p` after a step. -/
def record (p : Nat) (s : Sys) (x : Act) (g : Presses) : Presses :=
  match x with
  | .key scancode => if IsPress scancode then { g with handled := g.handled ++ [scancode] } else g
  | .read =>
    if s.sched.currentPid = p then
      match (s.users p).point with
      | .clearing => ⟨[], []⟩
      | .reading => { g with returned := g.returned ++ [s.kb.pressCode] }
      | _ => g
    else g
  | _ => g

/-- The reading loop of `readline`. -/
def Point.reads : Point → Bool
  | .testing | .blocking | .taking | .reading | .echoing | .echoed => true
  | _ => false

/-- A press finds the one before returned, and no `unlock` wakes a reader that sleeps in `get_char` while
there is no press. -/
structure Timely (p : Nat) (s : Sys) (x : Act) : Prop where
  press : ∀ scancode, x = .key scancode → IsPress scancode → (s.users p).point.reads →
    s.kb.newPress = false ∧ (s.users p).point ≠ .reading
  wake : x = .wake → ∀ w, s.waking = some w → Locking.headPid w.2 s.lk.kernel = p →
    (s.users p).point = .taking → s.kb.newPress = true

/-- A step together with the record. -/
def Recorded (p : Nat) (c : Sys × Presses) (x : Act) (c' : Sys × Presses) : Prop :=
  Step c.1 x c'.1 ∧ c'.2 = record p c.1 x c.2

/-! ## The invariant -/

/-- Either every press is returned, and a reader that sleeps is not woken, or the last press is in
`press_code`, and the flag is set until the reader is about to read it. -/
inductive HandOver (p : Nat) (s : Sys) (f : Nat → Nat) (g : Presses) : Prop
  | empty (hg : g.handled = g.returned) (hnew : s.kb.newPress = false)
      (hpt : (s.users p).point ≠ .reading)
      (hsleep : (s.users p).point = .taking → f p = 1 ∧
        (s.sched.currentPid = p → (s.users p).yields = true))
  | full (hg : g.handled = g.returned ++ [s.kb.pressCode])
      (hnew : s.kb.newPress = true ↔ (s.users p).point ≠ .reading)

/-- The record is in order, and in the loop it is known what is in the slot. -/
structure InOrder (p : Nat) (s : Sys) (f : Nat → Nat) (g : Presses) : Prop where
  order : g.returned <+: g.handled
  slot : (s.users p).point.reads → HandOver p s f g

section
variable {p : Nat} {s s' : Sys} {l : List Nat} {f : Nat → Nat} {x : Act} {g : Presses}

theorem Point.loops_of_reads {pt : Point} : pt.reads → pt.loops = true := by
  cases pt <;> decide

theorem Point.called_of_steps {pt : Point} : pt.steps → pt.loops ≠ true → pt = .called := by
  cases pt <;> decide

/-- The calls of `lock` and `unlock` in the loop are around `putchar`. -/
theorem Point.locking_reads {pt : Point} : pt.locking.reads →
    pt.reads ∧ (pt.locking = .reading ↔ pt = .reading) ∧ (pt.locking = .taking ↔ pt = .taking) := by
  cases pt <;> decide

theorem Point.unlocked_reads {pt : Point} : pt.unlocked.reads →
    pt.reads ∧ (pt.unlocked = .reading ↔ pt = .reading) ∧ (pt.unlocked = .taking ↔ pt = .taking) := by
  cases pt <;> decide

/-- A task that is not ready runs after a step only if it ran before. -/
theorem Inv.still_running (h : Inv s l f) (hstep : Step s x s') (hp : written f (s.writes x) p ≠ 0)
    (hcur : s'.sched.currentPid = p) : s.sched.currentPid = p := by
  obtain ⟨l', h', hkept⟩ := h.step hstep
  rcases hkept.current with hsame | h0
  · rw [← hcur]
    unfold Sched.currentPid
    rw [hsame, (hkept.old _ h.list.current).2]
  · rw [h'.tracks _ h'.list.current] at h0
    exact absurd (hcur ▸ h0) hp

/-- Behind `int $0x20` runs a ready task. -/
theorem Inv.yields_to_ready (h : Inv s l f) (hstep : Step s .yield s') :
    f s'.sched.currentPid = 0 := by
  obtain ⟨l', h', -⟩ := h.step hstep
  obtain ⟨fuel, hstep⟩ := hstep
  unfold act at hstep
  dsimp only at hstep
  split at hstep
  · obtain ⟨sched, hs, rfl⟩ := Option.map_eq_some_iff.1 hstep
    obtain ⟨a, ha, rfl, h0⟩ := h.list.switchTask hs
    exact (h.tracks a ha).symm.trans h0
  · cases hstep

/-! ## The steps -/

/-- An interrupt of the keyboard. -/
theorem InOrder.key (ho : InOrder p s f g) (h : Inv s l f) {scancode : BitVec 8}
    (hstep : Step s (.key scancode) s') (ht : Timely p s (.key scancode)) :
    InOrder p s' (written f (s.writes (.key scancode))) (record p s (.key scancode) g) := by
  have heff := hstep.effect
  have husers : (s'.users p).point = (s.users p).point ∧ (s'.users p).yields = (s.users p).yields := by
    by_cases hp : p = s.sched.currentPid
    · obtain ⟨u, hu, hpt, hy⟩ := heff.users
      rw [hu, hp, upd_same]
      exact ⟨hpt, hy⟩
    · rw [(heff.other hp).1]
      exact ⟨rfl, rfl⟩
  have hkb : s'.kb = s.kb.handle scancode := heff.kb
  unfold record
  dsimp only
  split
  · -- a press fills the empty slot
    rename_i hpress
    have hhandle : s.kb.handle scancode = { s.kb with newPress := true, pressCode := scancode } :=
      if_neg fun hne => hne hpress
    refine ⟨ho.order.trans (List.prefix_append _ _), fun hreads => ?_⟩
    rw [husers.1] at hreads
    obtain ⟨hnew, hpt⟩ := ht.press scancode rfl hpress hreads
    rcases ho.slot hreads with ⟨hg, -, -, -⟩ | ⟨-, hfull⟩
    · refine .full ?_ ?_
      · rw [hg, hkb, hhandle]
      · rw [hkb, hhandle, husers.1]
        exact ⟨fun _ => hpt, fun _ => rfl⟩
    · exact absurd (hfull.2 hpt) (by rw [hnew]; nofun)
  · rename_i hrelease
    have hhandle : s.kb.handle scancode = { s.kb with newBreak := true, breakCode := scancode } :=
      if_pos hrelease
    refine ⟨ho.order, fun hreads => ?_⟩
    rw [husers.1] at hreads
    rcases ho.slot hreads with ⟨hg, hnew, hpt, hsleep⟩ | ⟨hg, hfull⟩
    · have hw : s.writes (.key scancode) = none := by
        unfold Sys.writes
        dsimp only
        rw [hhandle, if_neg (fun hc => by rw [hnew] at hc; exact absurd hc.2 nofun)]
      rw [hw]
      refine .empty hg ?_ (by rwa [husers.1]) fun hp => ?_
      · rw [hkb, hhandle]
        exact hnew
      · rw [husers.1] at hp
        obtain ⟨h1, hy⟩ := hsleep hp
        refine ⟨h1, fun hcur => ?_⟩
        rw [husers.2]
        refine hy (h.still_running hstep ?_ hcur)
        rw [hw]
        show f p ≠ 0
        rw [h1]
        decide
    · refine .full ?_ ?_
      · rw [hkb, hhandle]
        exact hg
      · rw [hkb, hhandle, husers.1]
        exact hfull

/-- A step of the reader in `readline`. -/
theorem InOrder.read_self (ho : InOrder s.sched.currentPid s f g) (h : Inv s l f)
    (hstep : Step s .read s') :
    InOrder s.sched.currentPid s' (written f (s.writes .read)) (record s.sched.currentPid s .read g) := by
  have heff := hstep.effect
  have hguard := heff.guard
  obtain ⟨u, hu, hpt', hy'⟩ := heff.users
  have hkb := heff.kb
  have hself : s'.users s.sched.currentPid = u := by rw [hu, upd_same]
  have hocc := h.readers.inside s.sched.currentPid
  unfold record
  unfold Sys.kbAfter at hkb
  unfold Sys.pointAfter at hpt'
  unfold Sys.yieldsAfter at hy'
  unfold Sys.writes
  dsimp only at hkb hpt' hy' ⊢
  rw [if_pos rfl]
  cases hpt : (s.users s.sched.currentPid).point with
  | clearing =>
    rw [hpt] at hkb hpt' hy'
    refine ⟨List.nil_prefix, fun _ => .empty rfl ?_ ?_ ?_⟩
    · rw [hkb]
    · rw [hself, hpt']
      nofun
    · rw [hself, hpt']
      nofun
  | testing =>
    rw [hpt] at hkb hpt' hy'
    refine ⟨ho.order, fun _ => ?_⟩
    rcases ho.slot (by rw [hpt]; rfl) with ⟨hg, hnew, -, -⟩ | ⟨hg, hfull⟩
    · rw [hnew] at hpt'
      refine .empty hg ?_ ?_ ?_
      · rw [hkb, hnew]
      · rw [hself, hpt']
        nofun
      · rw [hself, hpt']
        nofun
    · have hnew : s.kb.newPress = true := hfull.2 (by rw [hpt]; nofun)
      rw [hnew] at hpt'
      refine .full ?_ ?_
      · rw [hkb]
        exact hg
      · rw [hkb, hself, hpt', hnew]
        exact ⟨fun _ => nofun, fun _ => rfl⟩
  | blocking =>
    rw [hpt] at hkb hpt' hy'
    rw [hocc (by rw [hpt]; rfl)]
    refine ⟨ho.order, fun _ => ?_⟩
    rcases ho.slot (by rw [hpt]; rfl) with ⟨hg, hnew, -, -⟩ | ⟨hg, hfull⟩
    · refine .empty hg ?_ ?_ fun _ => ⟨upd_same _ _ _, fun _ => ?_⟩
      · rw [hkb, hnew]
      · rw [hself, hpt']
        nofun
      · rw [hself, hy']
        rfl
    · refine .full ?_ ?_
      · rw [hkb]
        exact hg
      · rw [hkb, hself, show u.point = .taking from hpt']
        exact ⟨fun _ => nofun, fun _ => hfull.2 (by rw [hpt]; nofun)⟩
  | taking =>
    rw [hpt] at hkb hpt' hy'
    refine ⟨ho.order, fun _ => ?_⟩
    rcases ho.slot (by rw [hpt]; rfl) with ⟨-, -, -, hsleep⟩ | ⟨hg, -⟩
    · -- a reader without a press is asleep
      have hy := (hsleep hpt).2 rfl
      rw [hguard.1.1.1] at hy
      cases hy
    · refine .full ?_ ?_
      · rw [hkb]
        exact hg
      · rw [hkb, hself, hpt']
        exact ⟨nofun, fun hne => absurd rfl hne⟩
  | reading =>
    rw [hpt] at hkb hpt' hy'
    rcases ho.slot (by rw [hpt]; rfl) with ⟨-, -, hne, -⟩ | ⟨hg, hfull⟩
    · exact absurd hpt hne
    · have hnew : s.kb.newPress = false := by
        cases hb : s.kb.newPress with
        | false => rfl
        | true => exact absurd hpt (hfull.1 hb)
      have hpt'' : u.point = .echoing ∨ u.point = .ending := by
        rw [hpt']
        dsimp only
        split
        · exact .inl rfl
        · exact .inr rfl
      refine ⟨⟨[], by rw [List.append_nil, hg]⟩, fun _ => .empty hg ?_ ?_ ?_⟩
      · rw [hkb, hnew]
      · rw [hself]
        rcases hpt'' with he | he <;> rw [he] <;> nofun
      · rw [hself]
        rcases hpt'' with he | he <;> rw [he] <;> nofun
  | called =>
    rw [hpt] at hpt'
    refine ⟨ho.order, fun hr => ?_⟩
    rw [hself, hpt'] at hr
    cases hr
  | leaving =>
    rw [hpt] at hpt'
    refine ⟨ho.order, fun hr => ?_⟩
    rw [hself, hpt'] at hr
    cases hr
  | _ =>
    have hsteps := hguard.2
    rw [hpt] at hsteps
    cases hsteps

/-- A step that does not touch the slot. -/
theorem InOrder.keep {f' : Nat → Nat} (ho : InOrder p s f g)
    (hnew : s'.kb.newPress = s.kb.newPress) (hcode : s'.kb.pressCode = s.kb.pressCode)
    (hpt : (s'.users p).point.reads → (s.users p).point.reads ∧
      ((s'.users p).point = .reading ↔ (s.users p).point = .reading))
    (hsleep : s.kb.newPress = false → (s.users p).point.reads → (s'.users p).point = .taking →
      ((s.users p).point = .taking → f p = 1 ∧
        (s.sched.currentPid = p → (s.users p).yields = true)) →
      f' p = 1 ∧ (s'.sched.currentPid = p → (s'.users p).yields = true)) : InOrder p s' f' g := by
  refine ⟨ho.order, fun hreads => ?_⟩
  obtain ⟨hr, hiff⟩ := hpt hreads
  rcases ho.slot hr with ⟨hg, h0, hne, hs⟩ | ⟨hg, hfull⟩
  · exact .empty hg (by rw [hnew, h0]) (fun he => hne (hiff.1 he)) fun htake => hsleep h0 hr htake hs
  · refine .full (by rw [hcode, hg]) ?_
    rw [hnew, hfull]
    exact not_congr hiff.symm

/-- A step of another task in `readline`: it is before the loop. -/
theorem InOrder.read_other (ho : InOrder p s f g) (h : Inv s l f) (hstep : Step s .read s')
    (hp : p ≠ s.sched.currentPid) : InOrder p s' (written f (s.writes .read)) g := by
  have heff := hstep.effect
  have hother := (heff.other hp).1
  refine ⟨ho.order, fun hreads => ?_⟩
  rw [hother] at hreads
  -- two tasks are not in the loop
  have hcalled : (s.users s.sched.currentPid).point = .called := by
    have hsteps := heff.guard.2
    have hno : (s.users s.sched.currentPid).point.loops ≠ true := fun hl =>
      hp ((h.readers.inside p (Point.loops_of_reads hreads)).symm.trans (h.readers.inside _ hl))
    exact Point.called_of_steps hsteps hno
  have hw : s.writes .read = none := writes_read (by rw [hcalled]; nofun)
  have hkb : s'.kb = { s.kb with occupant := Locking.headPid keyboardLock s.lk.kernel } := by
    rw [heff.kb]
    unfold Sys.kbAfter
    dsimp only
    rw [hcalled]
  have hkeep : InOrder p s' (written f (s.writes .read)) g := ho.keep (by rw [hkb]) (by rw [hkb])
    (fun hr => by rw [hother] at hr ⊢; exact ⟨hr, Iff.rfl⟩) fun _ _ htake hs => by
      rw [hother] at htake
      obtain ⟨h1, -⟩ := hs htake
      have hf : written f (s.writes .read) p = 1 := by
        rw [hw]
        exact h1
      refine ⟨hf, fun hcur => absurd (h.still_running hstep ?_ hcur).symm hp⟩
      rw [hf]
      decide
  exact hkeep.slot (by rwa [hother])

/-- The status of a reader that sleeps is not written. -/
theorem Timely.writes (ht : Timely p s x) (h : Inv s l f) (hstep : Step s x s') (hkey : ∀ c, x ≠ .key c)
    (hread : x ≠ .read) (hnew : s.kb.newPress = false) (htake : (s.users p).point = .taking)
    (h1 : f p = 1) : written f (s.writes x) p = 1 := by
  have heff := hstep.effect
  cases x with
  | key c => exact absurd rfl (hkey c)
  | read => exact absurd rfl hread
  | block =>
    unfold written Sys.writes upd
    dsimp only
    split
    · rfl
    · exact h1
  | wake =>
    cases hw : s.waking with
    | none =>
      unfold written Sys.writes
      rw [hw]
      exact h1
    | some w =>
      have hne : Locking.headPid w.2 s.lk.kernel ≠ p := fun he => by
        have := ht.wake rfl w hw he htake
        rw [hnew] at this
        cases this
      unfold written Sys.writes
      rw [hw]
      exact (upd_ne _ _ (Ne.symm hne)).trans h1
  | fork newTask =>
    have hne : p ≠ s.sched.nextPid := by
      rintro rfl
      rw [h.unborn _ (Nat.le_refl _)] at htake
      cases htake
    exact (upd_ne _ _ hne).trans h1
  | exit =>
    have hne : p ≠ s.sched.currentPid := by
      rintro rfl
      rw [heff.guard.2] at htake
      cases htake
    exact (upd_ne _ _ hne).trans h1
  | _ => exact h1

/-- The steps outside the slot. -/
theorem InOrder.rest (ho : InOrder p s f g) (h : Inv s l f) (hstep : Step s x s') (ht : Timely p s x)
    (hkey : ∀ c, x ≠ .key c) (hread : x ≠ .read) : InOrder p s' (written f (s.writes x)) g := by
  have heff := hstep.effect
  have hguard := heff.guard
  have hkb : s'.kb = s.kb := by
    rw [heff.kb]
    unfold Sys.kbAfter
    cases x with
    | key c => exact absurd rfl (hkey c)
    | read => exact absurd rfl hread
    | _ => rfl
  by_cases hp : p = s.sched.currentPid
  · subst hp
    obtain ⟨u, hu, hpt, hy⟩ := heff.users
    have hself : s'.users s.sched.currentPid = u := by rw [hu, upd_same]
    have hmove : u.point.reads → (s.users s.sched.currentPid).point.reads ∧
        (u.point = .reading ↔ (s.users s.sched.currentPid).point = .reading) ∧
        (u.point = .taking ↔ (s.users s.sched.currentPid).point = .taking) := by
      rw [hpt]
      intro hr
      unfold Sys.pointAfter at hr ⊢
      cases x with
      | key c => exact absurd rfl (hkey c)
      | read => exact absurd rfl hread
      | lock lockid lck => exact Point.locking_reads hr
      | unlock lockid => exact Point.unlocked_reads hr
      | exit => cases hr
      | readline => cases hr
      | _ => exact ⟨hr, Iff.rfl, Iff.rfl⟩
    refine ho.keep (by rw [hkb]) (by rw [hkb]) (fun hr => ?_) fun hnew hr htake hs => ?_
    · rw [hself] at hr ⊢
      exact ⟨(hmove hr).1, (hmove hr).2.1⟩
    · rw [hself] at htake ⊢
      have htake' := (hmove (by rw [htake]; rfl)).2.2.1 htake
      obtain ⟨h1, hyields⟩ := hs htake'
      have hf := ht.writes h hstep hkey hread hnew htake' h1
      refine ⟨hf, fun hcur => ?_⟩
      have hyy := hyields rfl
      -- the sleeping reader takes no step of its own but `int $0x20`
      cases x with
      | key c => exact absurd rfl (hkey c)
      | read => exact absurd rfl hread
      | yield =>
        have := h.yields_to_ready hstep
        rw [hcur, h1] at this
        cases this
      | readline =>
        rw [hguard.2] at htake'
        cases htake'
      | block => rw [hy]; rfl
      | exit => rw [hy]; rfl
      | _ =>
        rw [hy]
        exact hyy
  · have hother := (heff.other hp).1
    refine ho.keep (by rw [hkb]) (by rw [hkb]) (fun hr => ?_) fun hnew hr htake hs => ?_
    · rw [hother] at hr ⊢
      exact ⟨hr, Iff.rfl⟩
    · rw [hother] at htake ⊢
      obtain ⟨h1, -⟩ := hs htake
      have hf := ht.writes h hstep hkey hread hnew htake h1
      refine ⟨hf, fun hcur => absurd (h.still_running hstep ?_ hcur).symm hp⟩
      rw [hf]
      decide

/-- **Every timely step keeps the presses in order.** -/
theorem InOrder.step (ho : InOrder p s f g) (h : Inv s l f) (hstep : Step s x s') (ht : Timely p s x) :
    InOrder p s' (written f (s.writes x)) (record p s x g) := by
  cases x with
  | key scancode => exact ho.key h hstep ht
  | read =>
    by_cases hp : p = s.sched.currentPid
    · subst hp
      exact ho.read_self h hstep
    · unfold record
      dsimp only
      rw [if_neg (Ne.symm hp)]
      exact ho.read_other h hstep hp
  | _ => exact ho.rest h hstep ht (fun _ => nofun) nofun

theorem InOrder.init (h : Init s) : InOrder p s (fun _ => 0) ⟨[], []⟩ :=
  ⟨List.nil_prefix, fun hr => by
    rw [h.users p] at hr
    cases hr⟩

/-- **No press is lost or doubled** in a timely run: what `get_char` has returned is a prefix of what the
handler has seen. -/
theorem presses_in_order (h : Reach (fun c => Init c.1 ∧ c.2 = ⟨[], []⟩)
    (fun c x c' => Recorded p c x c' ∧ Timely p c.1 x) (s, g)) : g.returned <+: g.handled := by
  obtain ⟨l, f, -, ho⟩ := h.invariant
    (P := fun c => ∃ l f, Inv c.1 l f ∧ InOrder p c.1 f c.2)
    (fun c hc => by
      obtain ⟨l, hinv⟩ := Inv.init hc.1
      exact ⟨l, _, hinv, by rw [hc.2]; exact .init hc.1⟩)
    fun c x c' hc hx => by
      obtain ⟨l, f, hinv, ho⟩ := hc
      obtain ⟨⟨hstep, hg⟩, ht⟩ := hx
      obtain ⟨l', hinv', -⟩ := hinv.step hstep
      rw [hg]
      exact ⟨l', _, hinv', ho.step hinv hstep ht⟩
  exact ho.order

end

/-! ## Two runs -/

/-- A step with fuel for ten tasks, and the record of the reader `p`. -/
def recorded (p : Nat) (c : Sys × Presses) (x : Act) : Option (Sys × Presses) :=
  (act 10 c.1 x).map fun s => (s, record p c.1 x c.2)

theorem recorded_step {p : Nat} {c c' : Sys × Presses} {x : Act} (h : recorded p c x = some c') :
    Recorded p c x c' := by
  obtain ⟨s, hs, rfl⟩ := Option.map_eq_some_iff.1 h
  exact ⟨⟨10, hs⟩, rfl⟩

/-- The test for `Timely`, without a wake-up. -/
def timely (p : Nat) (s : Sys) : Act → Bool
  | .key scancode => decide (IsPress scancode → (s.users p).point.reads →
      s.kb.newPress = false ∧ (s.users p).point ≠ .reading)
  | .wake => false
  | _ => true

def timelyStep (p : Nat) (c : Sys × Presses) (x : Act) : Option (Sys × Presses) :=
  if timely p c.1 x then recorded p c x else none

theorem timelyStep_step {p : Nat} {c c' : Sys × Presses} {x : Act} (h : timelyStep p c x = some c') :
    Recorded p c x c' ∧ Timely p c.1 x := by
  unfold timelyStep at h
  split at h
  · rename_i ht
    refine ⟨recorded_step h, fun scancode hx => ?_, fun hx => ?_⟩
    · subst hx
      exact of_decide_eq_true ht
    · subst hx
      cases ht
  · cases h

/-- Task 1 sleeps in `get_char` and is woken by a press, which it returns. -/
theorem presses_in_order_run : ∃ s g, runList (timelyStep 1) [.fork 32, .timer, .readline,
      .lock keyboardLock 8, .read, .read, .read, .read, .yield, .key 30, .read, .read]
      (booted, ⟨[], []⟩) = some (s, g) ∧
    g.returned = [30] ∧ g.returned <+: g.handled := by
  have hrun : (runList (timelyStep 1) [.fork 32, .timer, .readline, .lock keyboardLock 8, .read, .read,
      .read, .read, .yield, .key 30, .read, .read] (booted, ⟨[], []⟩)).map
      (fun c => c.2.returned) = some [30] := by decide
  obtain ⟨⟨s, g⟩, hs, hg⟩ := Option.map_eq_some_iff.1 hrun
  exact ⟨s, g, hs, hg, presses_in_order
    (.of_list (fun _ _ _ => timelyStep_step) (.start ⟨init_booted, rfl⟩) hs)⟩

/-- **A press is lost and another one doubled**: `B` (48) comes between `new_press = 0` and the return of
`get_char` for `A` (30), so `get_char` returns `B`, and `B` again. -/
theorem press_lost_and_doubled : ∃ s g,
    Reach (fun c => Init c.1 ∧ c.2 = ⟨[], []⟩) (Recorded 1) (s, g) ∧ g.handled = [30, 48] ∧
      g.returned = [48, 48] ∧ ¬ g.returned <+: g.handled := by
  have hrun : (runList (recorded 1) [.fork 32, .timer, .readline, .lock keyboardLock 8, .read, .read,
      .key 30, .timer, .read, .read, .key 48, .timer, .read, .lock monitorLock 24, .unlock monitorLock,
      .read, .read, .read] (booted, ⟨[], []⟩)).map
      (fun c => (c.2.handled, c.2.returned)) = some ([30, 48], [48, 48]) := by decide
  obtain ⟨⟨s, g⟩, hs, hg⟩ := Option.map_eq_some_iff.1 hrun
  obtain ⟨hh, hr⟩ := Prod.mk.inj hg
  refine ⟨s, g, .of_list (fun _ _ _ => recorded_step) (.start ⟨init_booted, rfl⟩) hs, hh, hr, ?_⟩
  rw [show g.handled = [30, 48] from hh, show g.returned = [48, 48] from hr]
  decide

end Tasks
