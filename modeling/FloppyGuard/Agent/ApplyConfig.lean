import FloppyGuard.Lib.Run

/-! `apply_config` of the agent loop: the conf of the interface, its hooks, and the rules they leave
in the kernel. -/
namespace FloppyGuard.ApplyConfig

/-- What a hook command with `%i` replaced makes of the live rules. -/
structure Kernel where
  Rule : Type
  run : String → List Rule → List Rule

variable {k : Kernel}

namespace Kernel

/-- A hook; an empty one is not run. -/
def exec (k : Kernel) (command : String) (live : List k.Rule) : List k.Rule :=
  if command = "" then live else k.run command live

end Kernel

/-- The hooks of a conf; its `PostDown` takes back what its `PostUp` has done. -/
structure Conf (k : Kernel) where
  postUp : String
  postDown : String
  inverse : ∀ live, k.exec postDown (k.exec postUp live) = live

/-- The interface, its conf in `/etc/wireguard`, the live rules, and the hooks swapped in by an
apply that failed afterwards (`POSTUP_APPLIED` and its `.down`). -/
structure State (k : Kernel) where
  ifaceUp : Bool
  disk : Option (Conf k)
  live : List k.Rule
  postupApplied : Option (String × String)

/-- A new config of the hub, and the steps that fail; `keyless` is a hidden key without a local one.
-/
structure Poll (k : Kernel) where
  conf : Conf k
  keyless : Bool
  syncconfFails : Bool
  copyFails : Bool

variable {s t : State k} {p : Poll k}

/-- The swap of the hooks after a successful `wg syncconf`. -/
def swapHooks (s : State k) (conf : Conf k) : State k :=
  let oldPostup := (s.disk.map Conf.postUp).getD ""
  let oldPostdown := (s.disk.map Conf.postDown).getD ""
  let downCmd := (s.postupApplied.map Prod.snd).getD oldPostdown
  -- already swapped in on an earlier attempt
  if s.postupApplied.any fun applied => applied.1 = conf.postUp then s
  else if s.postupApplied.isSome || oldPostup ≠ conf.postUp then
    { s with
      live := k.exec conf.postUp (k.exec downCmd s.live),
      postupApplied := some (conf.postUp, conf.postDown) }
  else s

/-- Whether the config counts as applied, and the state after it. -/
def applyConfig (s : State k) (p : Poll k) : Bool × State k :=
  if p.keyless then (false, s)
  else if s.ifaceUp then
    if p.syncconfFails then (false, s)
    else
      let s := swapHooks s p.conf
      if p.copyFails then (false, s)
      else (true, { s with disk := some p.conf, postupApplied := none })
  else if p.copyFails then (false, s)
  else
    -- `wg-quick up`
    (true,
      { s with
        ifaceUp := true, disk := some p.conf, live := k.exec p.conf.postUp s.live,
        postupApplied := none })

inductive Act (k : Kernel)
  | poll (p : Poll k)
  /-- `wg-quick down` and `wg-quick up`: a restart, or the start at boot -/
  | ifaceDown
  | ifaceUp
  | reboot

def step (s : State k) : Act k → Option (State k)
  | .poll p => some (applyConfig s p).2
  | .ifaceDown =>
    if s.ifaceUp then
      s.disk.map fun conf => { s with ifaceUp := false, live := k.exec conf.postDown s.live }
    else none
  | .ifaceUp =>
    if s.ifaceUp then none
    else s.disk.map fun conf => { s with ifaceUp := true, live := k.exec conf.postUp s.live }
  | .reboot => some { s with ifaceUp := false, live := [] }

/-! What is live. -/

/-- The rules of the hooks that ran last. -/
structure Sound (s : State k) : Prop where
  down : s.ifaceUp = false → s.live = [] ∧ s.postupApplied = none
  up : s.ifaceUp = true → ∃ conf, s.disk = some conf ∧
    (s.postupApplied = none → s.live = k.exec conf.postUp [])
  applied : ∀ up down, s.postupApplied = some (up, down) →
    s.live = k.exec up [] ∧ ∀ live, k.exec down (k.exec up live) = live

/-- After the swap the rules of the new conf are live, alone. -/
theorem Sound.swapHooks (h : Sound s) (hup : s.ifaceUp = true) (conf : Conf k) :
    (swapHooks s conf).live = k.exec conf.postUp [] ∧ Sound (ApplyConfig.swapHooks s conf) := by
  obtain ⟨old, hdisk, hlive⟩ := h.up hup
  unfold ApplyConfig.swapHooks
  dsimp only
  split
  · next hany =>
    obtain ⟨⟨up, down⟩, happlied, heq⟩ := (Option.any_eq_true ..).mp hany
    obtain rfl : up = conf.postUp := of_decide_eq_true heq
    exact ⟨(h.applied _ _ happlied).1, h⟩
  · split
    · have hcleared : k.exec
          ((s.postupApplied.map Prod.snd).getD ((s.disk.map Conf.postDown).getD "")) s.live =
            [] := by
        cases happlied : s.postupApplied with
        | none =>
          rw [hlive happlied, hdisk]
          exact old.inverse []
        | some applied =>
          obtain ⟨hrules, hinverse⟩ := h.applied applied.1 applied.2 happlied
          rw [hrules]
          exact hinverse []
      rw [hcleared]
      refine ⟨rfl, fun hdown => ?_, fun _ => ⟨old, hdisk, nofun⟩, fun up down he => ?_⟩
      · rw [hup] at hdown
        cases hdown
      · obtain ⟨⟩ := he
        exact ⟨rfl, conf.inverse⟩
    · next hsame =>
      rw [Bool.or_eq_true, not_or, decide_eq_true_eq, not_not] at hsame
      have hnone : s.postupApplied = none := Option.not_isSome_iff_eq_none.mp hsame.1
      refine ⟨?_, h⟩
      rw [hlive hnone, ← hsame.2, hdisk]
      rfl

/-- An apply keeps the account, and one that succeeds leaves the rules of the conf on disk. -/
theorem Sound.applyConfig (h : Sound s) (p : Poll k) :
    Sound (ApplyConfig.applyConfig s p).2 ∧ ((ApplyConfig.applyConfig s p).1 = true →
      (ApplyConfig.applyConfig s p).2.disk = some p.conf ∧
        (ApplyConfig.applyConfig s p).2.live = k.exec p.conf.postUp []) := by
  unfold ApplyConfig.applyConfig
  split
  · exact ⟨h, nofun⟩
  · split
    · next hup =>
      split
      · exact ⟨h, nofun⟩
      · obtain ⟨hlive, hswapped⟩ := h.swapHooks hup p.conf
        dsimp only
        split
        · exact ⟨hswapped, nofun⟩
        · refine ⟨⟨fun hdown => ⟨?_, rfl⟩, fun _ => ⟨p.conf, rfl, fun _ => hlive⟩, nofun⟩,
            fun _ => ⟨rfl, hlive⟩⟩
          exact (hswapped.down hdown).1
    · next hdown =>
      split
      · exact ⟨h, nofun⟩
      · have hlive : k.exec p.conf.postUp s.live = k.exec p.conf.postUp [] := by
          rw [(h.down (eq_false_of_ne_true hdown)).1]
        exact ⟨⟨nofun, fun _ => ⟨p.conf, rfl, fun _ => hlive⟩, nofun⟩, fun _ => ⟨rfl, hlive⟩⟩

/-- No interface goes down, and no reboot comes, while hooks of a conf that is not on disk are live.
-/
def calm (s : State k) : Act k → Bool
  | .ifaceDown | .reboot => s.postupApplied.isNone
  | _ => true

theorem Sound.step {a : Act k} (h : Sound s) (hs : step s a = some t) (hcalm : calm s a = true) :
    Sound t := by
  unfold ApplyConfig.step at hs
  split at hs
  · exact Option.some.inj hs ▸ (h.applyConfig _).1
  · split at hs
    · next hup =>
      obtain ⟨conf, hdisk, hlive⟩ := h.up hup
      have hnone := Option.isNone_iff_eq_none.mp hcalm
      rw [hdisk] at hs
      obtain rfl := Option.some.inj hs
      refine ⟨fun _ => ⟨?_, hnone⟩, nofun, fun up down he => ?_⟩
      · dsimp only
        rw [hlive hnone, conf.inverse]
      · exact nomatch hnone.symm.trans he
    · cases hs
  · split at hs
    · cases hs
    · next hdown =>
      obtain ⟨conf, hdisk, rfl⟩ := Option.map_eq_some_iff.mp hs
      obtain ⟨hlive, hnone⟩ := h.down (eq_false_of_ne_true hdown)
      refine ⟨nofun, fun _ => ⟨conf, hdisk, fun _ => ?_⟩, fun up down he => ?_⟩
      · dsimp only
        rw [hlive]
      · exact nomatch hnone.symm.trans he
  · obtain rfl := Option.some.inj hs
    have hnone := Option.isNone_iff_eq_none.mp hcalm
    exact ⟨fun _ => ⟨rfl, hnone⟩, nofun, fun up down he => nomatch hnone.symm.trans he⟩

def Calm : State k → Act k → State k → Prop :=
  Guarded (fun s a t => step s a = some t) fun s a => calm s a = true

/-- An agent starts with its interface down, with or without a conf. -/
def State.initial (disk : Option (Conf k)) : State k := ⟨false, disk, [], none⟩

theorem sound_initial (disk : Option (Conf k)) : Sound (State.initial disk) :=
  ⟨fun _ => ⟨rfl, rfl⟩, nofun, nofun⟩

/-- An apply that reports success leaves exactly the rules of the conf on disk, after any polls,
failures, restarts and reboots, as long as none of these comes between a failed conf copy and the
next successful apply. -/
theorem applied_rules_are_live {disk : Option (Conf k)} {acts : List (Act k)}
    (hrun : Run Calm (.initial disk) acts s)
    (hsuccess : (applyConfig s p).1 = true) :
    ∃ conf, (applyConfig s p).2.disk = some conf ∧
    (applyConfig s p).2.live = k.exec conf.postUp [] := by
  have hsound : Sound s := by
    refine hrun.guarded_invariant (I := Sound) (fun s a t hs hcalm h => ?_) (sound_initial disk)
    exact h.step hs hcalm
  exact ⟨p.conf, (hsound.applyConfig p).2 hsuccess⟩

/-! Confs whose hooks add and delete one rule. -/

theorem erase_last {α : Type} [BEq α] [LawfulBEq α] (xs : List α) (x : α) :
    ((xs ++ [x]).reverse.erase x).reverse = xs := by
  rw [List.reverse_append, List.reverse_singleton, List.singleton_append, List.erase_cons_head,
    List.reverse_reverse]

/-- A command `+r` appends the rule `r`, and `-r` deletes the last of its kind. -/
def sampleRun (command : String) (live : List (List Char)) : List (List Char) :=
  if command.toList.head? = some '+' then live ++ [command.toList.tail]
  else (live.reverse.erase command.toList.tail).reverse

theorem sampleRun_inverse (rule : String) (live : List (List Char)) :
    sampleRun ("-" ++ rule) (sampleRun ("+" ++ rule) live) = live := by
  have hup : sampleRun ("+" ++ rule) live = live ++ [rule.toList] := by simp [sampleRun]
  have hdown (xs : List (List Char)) : sampleRun ("-" ++ rule) xs =
      (xs.reverse.erase rule.toList).reverse := by
    simp [sampleRun]
  rw [hup, hdown, erase_last]

def sampleKernel : Kernel := ⟨List Char, sampleRun⟩

def sampleConf (rule : String) : Conf sampleKernel where
  postUp := "+" ++ rule
  postDown := "-" ++ rule
  inverse live := by
    have hne (c : String) (hc : c ≠ "") : c ++ rule ≠ "" := by simp [hc]
    rw [Kernel.exec, if_neg (hne "-" (by decide)), Kernel.exec, if_neg (hne "+" (by decide))]
    exact sampleRun_inverse rule live

/-- A poll whose copy fails or does not. -/
def polling (rule : String) (copyFails : Bool) : Poll sampleKernel :=
  ⟨sampleConf rule, false, false, copyFails⟩

theorem applied_rules_are_live_sample : ∃ s, Run Calm (.initial none)
      [.poll (polling "a" false), .poll (polling "b" true), .poll (polling "c" true),
        .poll (polling "b" false),
        .ifaceDown, .ifaceUp, .reboot, .ifaceUp] s ∧
    ∃ conf, (applyConfig s (polling "c" false)).2.disk = some conf ∧
      (applyConfig s (polling "c" false)).2.live = sampleKernel.exec conf.postUp [] := by
  have hrun :
    (([.poll (polling "a" false), .poll (polling "b" true), .poll (polling "c" true),
      .poll (polling "b" false),
        .ifaceDown, .ifaceUp, .reboot, .ifaceUp] : List (Act sampleKernel)).foldlM
      (Run.checked step fun s a => calm s a = true) (.initial none)).map
        (fun s => (applyConfig s (polling "c" false)).1) =
      some true := by decide +kernel
  obtain ⟨s, hs, hsuccess⟩ := Option.map_eq_some_iff.mp hrun
  have hcalm : Run Calm (.initial none) _ s := Run.of_checked hs
  exact ⟨s, hcalm, applied_rules_are_live hcalm hsuccess⟩

/-- The copy of `b` fails; a reboot or a restart runs the hooks of `a` on disk; the next poll takes
those of `b` for live. -/
theorem applied_rules_are_not_live :
    (∃ s, Run (fun s a t => step s a = some t) (.initial none)
        [.poll (polling "a" false), .poll (polling "b" true), .reboot, .ifaceUp] s ∧
      (applyConfig s (polling "b" false)).1 = true ∧
      (applyConfig s (polling "b" false)).2.live = ["a".toList] ∧
      ((applyConfig s (polling "b" false)).2.disk.map Conf.postUp) = some "+b") ∧
    ∃ s, Run (fun s a t => step s a = some t) (.initial none)
        [.poll (polling "a" false), .poll (polling "b" true), .ifaceDown, .ifaceUp] s ∧
      (applyConfig s (polling "b" false)).1 = true ∧
      (applyConfig s (polling "b" false)).2.live = ["b".toList, "a".toList] ∧
      ((applyConfig s (polling "b" false)).2.disk.map Conf.postUp) = some "+b" := by
  refine ⟨⟨_, Run.of_foldlM rfl, ?_, ?_, ?_⟩, _, Run.of_foldlM rfl, ?_, ?_, ?_⟩ <;> rfl

end FloppyGuard.ApplyConfig
