import FloppyGuard.WireGuard.KeyRotation

/-! One rotation for each download window: when the calls for a peer get the same config, and when
they do not. -/
namespace FloppyGuard.WireGuard.KeyRotation

/-- The ids of the peer: of its first key and of every key made for it. -/
def PeerId (w : HubWorld) (key : String) (s : State) (id : String) : Prop :=
  id = linkId w.ifaceName key ∨ ∃ k ∈ s.keys, id = linkId w.ifaceName k

/-- Calls for one peer while no cached config expires; `wg genkey` makes keys nobody has. -/
def Window (w : HubWorld) (key : String) (s : State) : Act → Prop
  | .ask _ id => PeerId w key s id
  | .genkey _ privateKey =>
    let new := w.derivePublicKey privateKey
    new ≠ key ∧ new ∉ s.keys ∧ s.live.get? new = none ∧ s.links.get? (linkId w.ifaceName new) = none
  | .expire _ => False
  | _ => True

/-- Whether the run that reads the live peers finds its link there. -/
def findsLink (w : HubWorld) (s : State) (i : ℕ) : Bool :=
  match s.runs i with
  | some ⟨id, .read store⟩ => (foundLink w s id store).isSome
  | _ => false

/-- A run that reads the live peers behind the rotation does not find its link there, and the conf
can be read. -/
def Undisturbed (w : HubWorld) (s : State) : Act → Prop
  | .readDump i => s.rotations ≠ [] → findsLink w s i = false
  | .swap _ readable => readable = true
  | _ => True

instance (w : HubWorld) (key : String) (s : State) (a : Act) : Decidable (Window w key s a) :=
  match a with
  | .ask _ id => inferInstanceAs (Decidable (id = _ ∨ ∃ k ∈ s.keys, id = _))
  | .genkey _ _ => inferInstanceAs (Decidable (_ ≠ _ ∧ _ ∉ _ ∧ _ = _ ∧ _ = _))
  | .expire _ => inferInstanceAs (Decidable False)
  | .readStore _ | .readDump _ | .swap _ _ | .wgRemove _ _ | .wgAdd _ _ | .moveEntry _ | .reread _
      | .finish _
  | .fail _ | .settle _ => inferInstanceAs (Decidable True)

instance (w : HubWorld) (s : State) (a : Act) : Decidable (Undisturbed w s a) :=
  match a with
  | .readDump _ => inferInstanceAs (Decidable (_ ≠ _ → _ = _))
  | .swap _ _ => inferInstanceAs (Decidable (_ = _))
  | .ask _ _ | .readStore _ | .genkey _ _ | .wgRemove _ _ | .wgAdd _ _ | .moveEntry _ | .reread _
      | .finish _ | .fail _
  | .settle _ | .expire _ => inferInstanceAs (Decidable True)

structure Start (key : String) (s : State) : Prop where
  calls : ∀ c, s.calls c = none
  runs : ∀ i, s.runs i = none
  cache : s.cache = .empty
  inFlight : s.inFlight = .empty
  holder : s.holder = none
  keys : s.keys = []
  rotations : s.rotations = []
  key_ne : key ≠ ""

/-- The conf has a peer with the key. -/
def Registered (key : String) (s : State) : Prop :=
  ∃ conf, s.conf = some conf ∧ (sections conf).any (·.holdsKey key) = true

variable {w : HubWorld} {key new id : String} {s₀ s t : State} {a : Act} {i o : ℕ} {p p' : Phase}

/-! Runs in flight. -/

/-- A run that has not ended is the one in flight for its id. -/
structure Owned (s : State) : Prop where
  inFlight : ∀ o id p, s.runs o = some ⟨id, p⟩ → s.calls o = some (.waiting o) →
    s.inFlight.get? id = some o
  active : ∀ o id p, s.runs o = some ⟨id, p⟩ → p.result? = none → s.calls o = some (.waiting o)
  called : ∀ o id p, s.runs o = some ⟨id, p⟩ → s.calls o ≠ none

theorem Owned.unique (h : Owned s) (hi : s.runs i = some ⟨id, p⟩) (ho : s.runs o = some ⟨id, p'⟩)
    (hp : p.result? = none) (hp' : p'.result? = none) : i = o := by
  have h₁ := h.inFlight i id p hi (h.active i id p hi hp)
  have h₂ := h.inFlight o id p' ho (h.active o id p' ho hp')
  exact Option.some.inj (h₁.symm.trans h₂)

/-- A run goes on, and stays in flight. -/
theorem Owned.enter (h : Owned s) (hi : s.runs i = some ⟨id, p⟩) (hp : p.result? = none) :
    Owned (s.enter i id p') where
  inFlight o id' q ho hc := by
    rcases enter_runs ho with ⟨rfl, rfl, rfl⟩ | ⟨-, ho⟩
    · exact h.inFlight o id' p hi hc
    · exact h.inFlight o id' q ho hc
  active o id' q ho hq := by
    rcases enter_runs ho with ⟨rfl, rfl, rfl⟩ | ⟨-, ho⟩
    · exact h.active o id' p hi hp
    · exact h.active o id' q ho hq
  called o id' q ho := by
    rcases enter_runs ho with ⟨rfl, rfl, rfl⟩ | ⟨-, ho⟩
    · exact h.called o id' p hi
    · exact h.called o id' q ho

theorem Owned.congr (h : Owned s) (hr : t.runs = s.runs) (hc : t.calls = s.calls)
    (hf : t.inFlight = s.inFlight) :
    Owned t where
  inFlight := by rw [hr, hc, hf]; exact h.inFlight
  active := by rw [hr, hc]; exact h.active
  called := by rw [hr, hc]; exact h.called

theorem answer_calls {c c' : ℕ} {call : Call} :
    (s.answer c call).calls c' = if c' = c then some call else s.calls c' :=
  Function.update_apply ..

/-- A call with a new number is no run's. -/
theorem Owned.answer (h : Owned s) {c : ℕ} {call : Call} (hc : s.calls c = none) :
    Owned (s.answer c call) := by
  have hsame : ∀ {o id p}, s.runs o = some ⟨id, p⟩ → (s.answer c call).calls o = s.calls o := by
    intro o id p ho
    rw [answer_calls, if_neg]
    rintro rfl
    exact h.called o id p ho hc
  constructor
  · intro o id p ho hw
    rw [hsame ho] at hw
    exact h.inFlight o id p ho hw
  · intro o id p ho hp
    rw [hsame ho]
    exact h.active o id p ho hp
  · intro o id p ho
    rw [hsame ho]
    exact h.called o id p ho

theorem Owned.start (h : Owned s) {c : ℕ} (hc : s.calls c = none) (hf : s.inFlight.get? id = none) :
    Owned (s.start c id) := by
  have hruns : ∀ {o id' p}, (s.start c id).runs o = some ⟨id', p⟩ →
      o = c ∧ id' = id ∨ o ≠ c ∧ s.runs o = some ⟨id', p⟩ := by
    intro o id' p ho
    change Function.update s.runs c (some ⟨id, .asked⟩) o = _ at ho
    by_cases hoc : o = c
    · subst hoc
      rw [Function.update_self] at ho
      cases ho
      exact .inl ⟨rfl, rfl⟩
    · rw [Function.update_of_ne hoc] at ho
      exact .inr ⟨hoc, ho⟩
  have hcalls : ∀ o, (s.start c id).calls o = if o = c then some (.waiting c) else s.calls o :=
    fun o => Function.update_apply ..
  have hflight : ∀ id', (s.start c id).inFlight.get? id' = if id' = id then some c
      else s.inFlight.get? id' :=
    fun id' => Table.get?_set
  constructor
  · intro o id' p ho hw
    rw [hflight]
    rcases hruns ho with ⟨rfl, rfl⟩ | ⟨hne, ho⟩
    · rw [if_pos rfl]
    · rw [hcalls, if_neg hne] at hw
      have hown := h.inFlight o id' p ho hw
      rwa [if_neg fun he => by rw [he, hf] at hown; cases hown]
  · intro o id' p ho hp
    rw [hcalls]
    rcases hruns ho with ⟨rfl, rfl⟩ | ⟨hne, ho⟩
    · rw [if_pos rfl]
    · rw [if_neg hne]
      exact h.active o id' p ho hp
  · intro o id' p ho
    rw [hcalls]
    rcases hruns ho with ⟨rfl, rfl⟩ | ⟨hne, ho⟩
    · rw [if_pos rfl]
      nofun
    · rw [if_neg hne]
      exact h.called o id' p ho

/-- An answered call takes its own run out of flight, which has ended. -/
theorem Owned.settle (h : Owned s) {c owner : ℕ} {result : Option PeerConfig}
    (hc : s.calls c = some (.waiting owner))
    (ho : s.runs owner = some ⟨id, p⟩) (hp : p.result? = some result) :
    Owned (s.settled c owner id result) := by
  have hcalls : ∀ o, (s.settled c owner id result).calls o = if o = c then some (.ended result)
      else s.calls o :=
    fun o => answer_calls
  constructor
  · intro o id' q hrun hw
    rw [hcalls] at hw
    split at hw
    · cases hw
    next hne =>
    have hown := h.inFlight o id' q hrun hw
    change (if c = owner then s.inFlight.erase id else s.inFlight).get? id' = _
    split
    · next hself =>
      subst hself
      rw [Table.get?_erase, if_neg, hown]
      rintro rfl
      have hmine := h.inFlight c id' p ho hc
      exact hne (Option.some.inj (hown.symm.trans hmine))
    · exact hown
  · intro o id' q hrun hq
    rw [hcalls, if_neg]
    · exact h.active o id' q hrun hq
    · rintro rfl
      have hwait := h.active o id' q hrun hq
      obtain rfl : o = owner := Call.waiting.inj (Option.some.inj (hwait.symm.trans hc))
      cases Option.some.inj (hrun.symm.trans ho)
      rw [hp] at hq
      cases hq
  · intro o id' q hrun
    rw [hcalls]
    split
    · exact Option.some_ne_none _
    · exact h.called o id' q hrun

theorem Owned.step (h : Owned s) (hs : Step w s a t) : Owned t := by
  cases hs with
  | cached hc _ => exact h.answer hc
  | joined hc _ _ => exact h.answer hc
  | started hc _ hf => exact h.start hc hf
  | readStore hi => exact h.enter hi rfl
  | found hi _ => exact h.enter hi rfl
  | notFound hi _ => exact h.enter hi rfl
  | genkey hi _ => exact (h.enter hi rfl).congr rfl rfl rfl
  | swapped hi _ _ _ _ => exact (h.enter hi rfl).congr rfl rfl rfl
  | kept hi _ => exact h.enter hi rfl
  | wgRemove hi => exact (h.enter hi rfl).congr rfl rfl rfl
  | wgAdd hi => exact (h.enter hi rfl).congr rfl rfl rfl
  | moveEntry hi _ => exact (h.enter hi rfl).congr rfl rfl rfl
  | reread hi => exact h.enter hi rfl
  | finish hi => exact (h.enter hi rfl).congr rfl rfl rfl
  | @fail i id phase hi hmay =>
    refine h.enter hi ?_
    cases phase <;> first | rfl | cases hmay
  | settle hc ho hr => exact h.settle hc ho hr
  | expire => exact h.congr rfl rfl rfl

/-! Before the rotation. -/

/-- What a run may have found out while nothing has been rotated. -/
def Early (w : HubWorld) (key : String) (s₀ : State) (id : String) : Phase → Prop
  | .asked | .read _ | .failed => True
  | .found _ _ link => id = linkId w.ifaceName key ∧ link.peerPublicKey = key
  | .keyed d => id = linkId w.ifaceName key ∧ d.link.peerPublicKey = key ∧ d.newPubKey w ≠ key ∧
      s₀.links.get? (d.newLinkId w) = none
  | _ => False

structure Before (w : HubWorld) (key : String) (s₀ s : State) : Prop where
  conf : s.conf = s₀.conf
  live : s.live = s₀.live
  links : s.links = s₀.links
  cache : ∀ id, s.cache.get? id = none
  rotations : s.rotations = []
  keys : ∀ k ∈ s.keys, s₀.live.get? k = none
  ids : ∀ i id p, s.runs i = some ⟨id, p⟩ → PeerId w key s id
  early : ∀ i id p, s.runs i = some ⟨id, p⟩ → Early w key s₀ id p
  results : ∀ c r, s.calls c ≠ some (.ended (some r))

theorem Before.enter (h : Before w key s₀ s) (hi : s.runs i = some ⟨id, p⟩)
    (he : Early w key s₀ id p') :
    Before w key s₀ (s.enter i id p') :=
  { h with
    ids := by
      intro j id' q hj
      rcases enter_runs hj with ⟨rfl, rfl, rfl⟩ | ⟨-, hj⟩
      · exact h.ids j id' p hi
      · exact h.ids j id' q hj
    early := by
      intro j id' q hj
      rcases enter_runs hj with ⟨rfl, rfl, rfl⟩ | ⟨-, hj⟩
      · exact he
      · exact h.early j id' q hj }

/-- A link a run finds before the rotation is the peer with its first key. -/
theorem Before.found (h : Before w key s₀ s) (hi : s.runs i = some ⟨id, p⟩)
    {store : Table String LinkEntry}
    {link : LinkRecord} (hl : foundLink w s id store = some link) :
    id = linkId w.ifaceName key ∧ link.peerPublicKey = key := by
  have hid : link.id = id := by simpa using List.find?_some hl
  obtain ⟨hlink, hlive⟩ := mem_statusLinks (List.mem_of_find?_eq_some hl)
  rw [hid] at hlink
  rw [h.live] at hlive
  rcases h.ids i id p hi with hfirst | ⟨k, hk, hmade⟩
  · exact ⟨hfirst, linkId_injective _ (hlink.symm.trans hfirst)⟩
  · obtain rfl : link.peerPublicKey = k := linkId_injective _ (hlink.symm.trans hmade)
    rw [h.keys _ hk] at hlive
    cases hlive

/-! After the rotation. -/

/-- A run that neither knows its link nor has a result. -/
def Idle : Phase → Prop
  | .asked | .read _ | .failed => True
  | _ => False

/-- The run that has rotated the key. -/
def Late (w : HubWorld) (key new : String) (s₀ : State) (links : Table String LinkEntry) :
    Phase → Prop
  | .written d | .removed d | .rotated d => d.newPubKey w = new ∧ links = s₀.links
  | .moved d | .ready d true _ =>
    d.newPubKey w = new ∧
      links = moveLink s₀.links (linkId w.ifaceName key) (linkId w.ifaceName new)
  | .done r =>
    r.publicKey = new ∧ links = moveLink s₀.links (linkId w.ifaceName key) (linkId w.ifaceName new)
  | .failed => True
  | _ => False

structure After (w : HubWorld) (key new : String) (o : ℕ) (s₀ s : State) : Prop where
  conf : ∃ conf, s₀.conf = some conf ∧ (rewriteRotatedPeer conf key new).1 = true ∧
    s.conf = some (rewriteRotatedPeer conf key new).2
  rotations : s.rotations = [(key, new)]
  new_ne : new ≠ key
  fresh : s₀.links.get? (linkId w.ifaceName new) = none
  owner : ∃ p, s.runs o = some ⟨linkId w.ifaceName key, p⟩ ∧ Late w key new s₀ s.links p
  idle : ∀ i id p, i ≠ o → s.runs i = some ⟨id, p⟩ → Idle p
  cache : ∀ id r, s.cache.get? id = some r → s.runs o = some ⟨linkId w.ifaceName key, .done r⟩
  results : ∀ c r, s.calls c = some (.ended (some r)) →
    s.runs o = some ⟨linkId w.ifaceName key, .done r⟩

/-- Nothing but what other runs know changes, and they stay idle. -/
theorem After.enter (h : After w key new o s₀ s) (hi : i ≠ o) (hp : Idle p) :
    After w key new o s₀ (s.enter i id p) := by
  have howner : (s.enter i id p).runs o = s.runs o := Function.update_of_ne hi.symm ..
  exact { h with
    owner := howner ▸ h.owner
    idle := by
      intro j id' q hj hq
      rcases enter_runs hq with ⟨rfl, rfl, rfl⟩ | ⟨-, hq⟩
      · exact hp
      · exact h.idle j id' q hj hq
    cache := howner ▸ h.cache
    results := howner ▸ h.results }

theorem After.phase_cases (h : After w key new o s₀ s) (hi : s.runs i = some ⟨id, p⟩) :
    i = o ∧ id = linkId w.ifaceName key ∧ Late w key new s₀ s.links p ∨ i ≠ o ∧ Idle p := by
  by_cases hio : i = o
  · subst hio
    obtain ⟨q, hq, hlate⟩ := h.owner
    cases Option.some.inj (hi.symm.trans hq)
    exact .inl ⟨rfl, rfl, hlate⟩
  · exact .inr ⟨hio, h.idle i id p hio hi⟩

/-- While the run has no result yet, no config is cached and no call has got one. -/
theorem After.progress (h : After w key new o s₀ s) (p' : Phase) (ho : s.runs o = some ⟨id, p⟩)
    (hp : p.result? = none)
    (hlate : Late w key new s₀ t.links p') (hruns : t.runs = (s.enter o id p').runs)
    (hcalls : t.calls = s.calls)
    (hconf : t.conf = s.conf) (hrotations : t.rotations = s.rotations)
    (hcache : ∀ id' r, t.cache.get? id' = some r → s.cache.get? id' = some r ∨ p' = .done r) :
    After w key new o s₀ t := by
  obtain ⟨q, hq, -⟩ := h.owner
  cases Option.some.inj (ho.symm.trans hq)
  have hnone : ∀ r, s.runs o ≠ some ⟨linkId w.ifaceName key, .done r⟩ := by
    intro r hr
    cases Option.some.inj (ho.symm.trans hr)
    cases hp
  have howner : t.runs o = some ⟨linkId w.ifaceName key, p'⟩ := by
    rw [hruns]
    exact Function.update_self ..
  constructor
  · obtain ⟨conf, hstart, hswap, hnow⟩ := h.conf
    exact ⟨conf, hstart, hswap, hconf.trans hnow⟩
  · exact hrotations.trans h.rotations
  · exact h.new_ne
  · exact h.fresh
  · exact ⟨p', howner, hlate⟩
  · intro j id' q hj hrun
    rw [hruns] at hrun
    rcases enter_runs hrun with ⟨rfl, -⟩ | ⟨-, hrun⟩
    · exact absurd rfl hj
    · exact h.idle j id' q hj hrun
  · intro id' r hr
    rcases hcache id' r hr with hr | rfl
    · exact absurd (h.cache id' r hr) (hnone r)
    · exact howner
  · intro c r hr
    rw [hcalls] at hr
    exact absurd (h.results c r hr) (hnone r)

/-- A call that gets the result there is. -/
theorem After.answer (h : After w key new o s₀ s) {c : ℕ} {call : Call}
    (hcall : ∀ r, call = .ended (some r) → s.runs o = some ⟨linkId w.ifaceName key, .done r⟩) :
    After w key new o s₀ (s.answer c call) :=
  { h with
    results := by
      intro c' r hr
      rw [answer_calls] at hr
      split at hr
      · exact hcall r (Option.some.inj hr)
      · exact h.results c' r hr }

theorem After.start (h : After w key new o s₀ s) {c : ℕ} (hc : c ≠ o) :
    After w key new o s₀ (s.start c id) := by
  have hasked : After w key new o s₀ (s.enter c id .asked) := h.enter hc trivial
  have hwaiting : After w key new o s₀ ((s.enter c id .asked).answer c (.waiting c)) :=
    hasked.answer nofun
  exact { hwaiting with }

theorem After.finish (h : After w key new o s₀ s) {d : Draft} {rotated : Bool}
    {store : Table String LinkEntry}
    (ho : s.runs o = some ⟨id, .ready d rotated store⟩)
    (hlate : Late w key new s₀ s.links (.ready d rotated store)) :
    After w key new o s₀ (s.finished w o id d rotated store) := by
  cases rotated with
  | false => exact hlate.elim
  | true =>
    refine h.progress (.done (d.config w id true store)) ho rfl hlate rfl rfl rfl rfl fun id' r
      hr => ?_
    change ((s.cache.set id (d.config w id true store)).set (d.newLinkId w)
      (d.config w id true store)).get? id' = _ at hr
    rw [Table.get?_set] at hr
    split at hr
    · exact .inr (by rw [Option.some.inj hr])
    · rw [Table.get?_set] at hr
      split at hr
      · exact .inr (by rw [Option.some.inj hr])
      · exact .inl hr

theorem After.step (h : After w key new o s₀ s) (hown : Owned s) (hs : Step w s a t)
    (hwindow : Window w key s a)
    (hok : Undisturbed w s a) : After w key new o s₀ t := by
  have hno : ∀ {i id p}, s.runs i = some ⟨id, p⟩ → ¬ Late w key new s₀ s.links p → i ≠ o :=
    fun hi hp =>
    (h.phase_cases hi).elim (fun hc => absurd hc.2.2 hp) And.left
  have hthe : ∀ {i id p}, s.runs i = some ⟨id, p⟩ → ¬ Idle p →
      i = o ∧ Late w key new s₀ s.links p := fun hi hp =>
    (h.phase_cases hi).elim (fun hc => ⟨hc.1, hc.2.2⟩) fun hc => absurd hc.2 hp
  have hsame : ∀ {p' : Phase} (id' : String) r, s.cache.get? id' = some r →
      s.cache.get? id' = some r ∨ p' = .done r :=
    fun _ _ => .inl
  cases hs with
  | cached hc hr => exact h.answer fun r' he => by cases he; exact h.cache _ _ hr
  | joined hc _ _ => exact h.answer nofun
  | @started c id hc _ _ =>
    refine h.start fun he => ?_
    obtain ⟨p, hp, -⟩ := h.owner
    exact hown.called o _ p hp (he ▸ hc)
  | readStore hi => exact h.enter (hno hi False.elim) trivial
  | found hi hl =>
    have hne : s.rotations ≠ [] := by
      rw [h.rotations]
      exact List.cons_ne_nil _ _
    have hnot := hok hne
    simp [findsLink, hi, hl] at hnot
  | notFound hi _ => exact h.enter (hno hi False.elim) trivial
  | genkey hi _ => exact (hthe hi False.elim).2.elim
  | swapped hi _ _ _ _ => exact (hthe hi False.elim).2.elim
  | kept hi _ => exact (hthe hi False.elim).2.elim
  | @wgRemove i id d ok hi =>
    obtain ⟨rfl, hlate⟩ := hthe hi False.elim
    exact h.progress (.removed d) hi rfl hlate rfl rfl rfl rfl hsame
  | @wgAdd i id d ok hi =>
    obtain ⟨rfl, hlate⟩ := hthe hi False.elim
    exact h.progress (.rotated d) hi rfl hlate rfl rfl rfl rfl hsame
  | @moveEntry i id d hi _ =>
    rcases h.phase_cases hi with ⟨rfl, rfl, hlate⟩ | ⟨-, hidle⟩
    · refine h.progress (.moved d) hi rfl ⟨hlate.1, ?_⟩ rfl rfl rfl rfl hsame
      rw [← hlate.2, ← hlate.1]
      rfl
    · exact hidle.elim
  | @reread i id d hi =>
    obtain ⟨rfl, hlate⟩ := hthe hi False.elim
    exact h.progress (.ready d true s.links) hi rfl hlate rfl rfl rfl rfl hsame
  | finish hi =>
    obtain ⟨rfl, hlate⟩ := hthe hi False.elim
    exact h.finish hi hlate
  | @fail i id phase hi hmay =>
    rcases h.phase_cases hi with ⟨rfl, rfl, hlate⟩ | ⟨hne, -⟩
    · refine h.progress .failed hi ?_ trivial rfl rfl rfl rfl hsame
      cases phase <;> first | rfl | cases hmay
    · exact h.enter hne trivial
  | @settle c owner id phase result hc ho hr =>
    have hanswer : After w key new o s₀ (s.answer c (.ended result)) := h.answer fun r he => by
      cases he
      rcases h.phase_cases ho with ⟨rfl, rfl, -⟩ | ⟨-, hidle⟩
      · cases phase <;> cases hr
        exact ho
      · cases phase <;> first | exact hidle.elim | cases hr
    exact { hanswer with }
  | expire => exact hwindow.elim

/-! Every step. -/

theorem Before.answer (h : Before w key s₀ s) {c : ℕ} {call : Call}
    (hcall : ∀ r, call ≠ .ended (some r)) :
    Before w key s₀ (s.answer c call) :=
  { h with
    results := by
      intro c' r hr
      rw [answer_calls] at hr
      split at hr
      · exact hcall r (Option.some.inj hr)
      · exact h.results c' r hr }

theorem Before.start (h : Before w key s₀ s) {c : ℕ} (hid : PeerId w key s id) :
    Before w key s₀ (s.start c id) := by
  have hasked : Before w key s₀ (s.enter c id .asked) :=
    { h with
      ids := by
        intro j id' q hj
        rcases enter_runs hj with ⟨rfl, rfl, rfl⟩ | ⟨-, hj⟩
        · exact hid
        · exact h.ids j id' q hj
      early := by
        intro j id' q hj
        rcases enter_runs hj with ⟨rfl, rfl, rfl⟩ | ⟨-, hj⟩
        · exact trivial
        · exact h.early j id' q hj }
  have hwaiting : Before w key s₀ ((s.enter c id .asked).answer c (.waiting c)) :=
    hasked.answer nofun
  exact { hwaiting with }

theorem Before.genkey (h : Before w key s₀ s) {store : Table String LinkEntry}
    {status : List LinkRecord}
    {link : LinkRecord} {privateKey : String} (hi : s.runs i = some ⟨id, .found store status link⟩)
    (hnew : Window w key s (.genkey i privateKey)) :
    Before w key s₀ { s.enter i id (.keyed ⟨store, status, link, privateKey⟩) with
      keys := s.keys ++ [w.derivePublicKey privateKey] } := by
  obtain ⟨hne, -, hlive, hlinks⟩ := hnew
  rw [h.live] at hlive
  rw [h.links] at hlinks
  have hlink := h.early i id _ hi
  have hkeyed : Before w key s₀ (s.enter i id (.keyed ⟨store, status, link, privateKey⟩)) :=
    h.enter hi ⟨hlink.1, hlink.2, hne, hlinks⟩
  exact { hkeyed with
    keys := by
      intro k hk
      rcases List.mem_append.mp hk with hk | hk
      · exact h.keys k hk
      · exact List.mem_singleton.mp hk ▸ hlive
    ids := fun j id' q hj =>
      (hkeyed.ids j id' q hj).imp_right fun ⟨k, hk, he⟩ => ⟨k, List.mem_append_left _ hk, he⟩ }

/-- The one run that knows the link rotates the key. -/
theorem Before.swapped (h : Before w key s₀ s) (hown : Owned s) {d : Draft} {conf : List String}
    (hi : s.runs i = some ⟨id, .keyed d⟩) (hconf : s.conf = some conf)
    (hswap : (rewriteRotatedPeer conf d.link.peerPublicKey (d.newPubKey w)).1 = true) :
    After w key (d.newPubKey w) i s₀ (s.swapped w i id d conf) := by
  obtain ⟨rfl, rfl, hne, hfresh⟩ := h.early i id _ hi
  constructor
  · exact ⟨conf, h.conf ▸ hconf, hswap, rfl⟩
  · change s.rotations ++ [(d.link.peerPublicKey, d.newPubKey w)] = _
    rw [h.rotations, List.nil_append]
  · exact hne
  · exact hfresh
  · exact ⟨.written d, Function.update_self .., rfl, h.links⟩
  · intro j id' q hj hq
    rcases enter_runs hq with ⟨rfl, -⟩ | ⟨-, hq⟩
    · exact absurd rfl hj
    · have hearly := h.early j id' q hq
      -- two runs that know the link would both be in flight for its id
      cases q with
      | asked => exact trivial
      | read => exact trivial
      | failed => exact trivial
      | found =>
        obtain ⟨rfl, -⟩ := hearly
        exact absurd (hown.unique hq hi rfl rfl) hj
      | keyed =>
        obtain ⟨rfl, -⟩ := hearly
        exact absurd (hown.unique hq hi rfl rfl) hj
      | _ => exact hearly.elim
  · intro id' r hr
    change s.cache.get? id' = _ at hr
    rw [h.cache id'] at hr
    cases hr
  · exact fun c r hr => absurd hr (h.results c r)

theorem Before.step (h : Before w key s₀ s) (hown : Owned s) (hkey : key ≠ "")
    (hreg : Registered key s₀)
    (hs : Step w s a t) (hwindow : Window w key s a) (hok : Undisturbed w s a) :
    Before w key s₀ t ∨ ∃ new o, After w key new o s₀ t := by
  cases hs with
  | cached _ hr =>
    rw [h.cache] at hr
    cases hr
  | joined => exact .inl (h.answer nofun)
  | started => exact .inl (h.start hwindow)
  | readStore hi => exact .inl (h.enter hi trivial)
  | found hi hl => exact .inl (h.enter hi (h.found hi hl))
  | notFound hi _ => exact .inl (h.enter hi trivial)
  | genkey hi _ => exact .inl (h.genkey hi hwindow)
  | swapped hi _ _ hconf hswap => exact .inr ⟨_, _, h.swapped hown hi hconf hswap⟩
  | @kept i id d readable hi hkept =>
    obtain ⟨-, hold, hne, -⟩ := h.early i id _ hi
    obtain ⟨conf, hconf, hholds⟩ := hreg
    rw [hold] at hkept
    rcases hkept with he | he | he | he
    · exact absurd he hkey
    · exact absurd he.symm hne
    · cases he.symm.trans hok
    · have hnot := he conf (h.conf.trans hconf)
      rw [rewriteRotatedPeer_swaps, hholds] at hnot
      cases hnot
  | wgRemove hi => exact (h.early _ _ _ hi).elim
  | wgAdd hi => exact (h.early _ _ _ hi).elim
  | moveEntry hi _ => exact (h.early _ _ _ hi).elim
  | reread hi => exact (h.early _ _ _ hi).elim
  | finish hi => exact (h.early _ _ _ hi).elim
  | fail hi _ => exact .inl (h.enter hi trivial)
  | @settle c owner id phase result hc ho hr =>
    have hanswer : Before w key s₀ (s.answer c (.ended result)) := h.answer fun r he => by
      cases he
      have hearly := h.early owner id phase ho
      cases phase <;> first | exact hearly.elim | cases hr
    exact .inl { hanswer with }
  | expire => exact hwindow.elim

/-! Every run. -/

/-- Each promise is in flight, and its key is rotated or not. -/
def Rotating (w : HubWorld) (key : String) (s₀ s : State) : Prop :=
  Owned s ∧ (Before w key s₀ s ∨ ∃ new o, After w key new o s₀ s)

theorem Start.rotating (h : Start key s₀) : Rotating w key s₀ s₀ := by
  have hruns : ∀ {i run}, s₀.runs i ≠ some run := fun hi => by
    rw [h.runs] at hi
    cases hi
  constructor
  · exact ⟨fun _ _ _ ho => absurd ho hruns, fun _ _ _ ho => absurd ho hruns, fun _ _ _ ho =>
      absurd ho hruns⟩
  · exact .inl {
      conf := rfl
      live := rfl
      links := rfl
      cache := fun id => by rw [h.cache]; rfl
      rotations := h.rotations
      keys := by
        intro e he
        rw [h.keys] at he
        cases he
      ids := fun _ _ _ hi => absurd hi hruns
      early := fun _ _ _ hi => absurd hi hruns
      results := fun c r hr => by rw [h.calls] at hr; cases hr }

theorem Rotating.step (h : Rotating w key s₀ s) (hkey : key ≠ "") (hreg : Registered key s₀)
    (hs : Step w s a t)
    (hwindow : Window w key s a) (hok : Undisturbed w s a) : Rotating w key s₀ t := by
  refine ⟨h.1.step hs, ?_⟩
  rcases h.2 with hbefore | ⟨new, o, hafter⟩
  · exact hbefore.step h.1 hkey hreg hs hwindow hok
  · exact .inr ⟨new, o, hafter.step h.1 hs hwindow hok⟩

theorem get?_moveLink {links : Table String LinkEntry} {id newId : String} (hne : newId ≠ id)
    (hnew : links.get? newId = none) : (moveLink links id newId).get? newId = links.get? id ∧
      (moveLink links id newId).get? id = none := by
  unfold moveLink
  split
  · next entry hentry =>
    constructor
    · rw [Table.get?_erase, if_neg hne, Table.get?_set, if_pos rfl, hentry]
    · rw [Table.get?_erase, if_pos rfl]
  · next hnone => exact ⟨hnew.trans hnone.symm, hnone⟩

/-- In every run whose calls are undisturbed the key is rotated at most once, and every call that
succeeds gets the one config whose public key is in the conf and in the metadata. -/
theorem rotated_once {acts : List Act} (hstart : Start key s₀) (hreg : Registered key s₀)
    (hrun : Run (Guarded (fun s a t => step w s a = some t) fun s a => Window w key s a ∧
      Undisturbed w s a) s₀ acts s) :
    s.rotations.length ≤ 1 ∧ ∀ c r, s.calls c = some (.ended (some r)) →
      s.rotations = [(key, r.publicKey)] ∧
      (∀ c' r', s.calls c' = some (.ended (some r')) → r' = r) ∧
      (∃ conf, s₀.conf = some conf ∧ s.conf = some (rewriteRotatedPeer conf key r.publicKey).2 ∧
        "PublicKey = " ++ r.publicKey ∈ peerLines (rewriteRotatedPeer conf key r.publicKey).2) ∧
      s.links.get? (linkId w.ifaceName r.publicKey) = s₀.links.get? (linkId w.ifaceName key) ∧
      s.links.get? (linkId w.ifaceName key) = none := by
  have hinv : Rotating w key s₀ s := hrun.guarded_invariant
    (fun _ _ _ hs hok h => h.step hstart.key_ne hreg (step_cases hs) hok.1 hok.2) hstart.rotating
  rcases hinv.2 with hbefore | ⟨new, o, hafter⟩
  · exact ⟨by simp [hbefore.rotations], fun c r hr => absurd hr (hbefore.results c r)⟩
  refine ⟨by simp [hafter.rotations], fun c r hr => ?_⟩
  have hdone := hafter.results c r hr
  obtain ⟨p, hp, hlate⟩ := hafter.owner
  cases Option.some.inj (hdone.symm.trans hp)
  obtain ⟨rfl, hlinks⟩ := hlate
  obtain ⟨conf, hconf, hswap, hnow⟩ := hafter.conf
  have hmoved := get?_moveLink (fun he => hafter.new_ne (linkId_injective w.ifaceName he))
    hafter.fresh
  refine ⟨hafter.rotations, fun c' r' hr' => ?_, ⟨conf, hconf, hnow, publicKey_of_rotated hswap⟩,
    ?_, ?_⟩
  · cases Option.some.inj ((hafter.results c' r' hr').symm.trans hdone)
    rfl
  · rw [hlinks]
    exact hmoved.1
  · rw [hlinks]
    exact hmoved.2

/-! Three calls for a client, and two of them around its rotation. -/

def sampleWorld : HubWorld where
  ifaceName := "wg0"
  ifaceAddresses := ["10.10.0.1/24"]
  ifaceDns := []
  hubPublicKey := some "hub="
  hubListenPort := 51820
  hubHost := "vpn.lan"
  wgDns := []
  isIP := fun _ => false
  derivePublicKey := fun privateKey => privateKey ++ "="

def clientEntry : LinkEntry := ⟨⟨some "phone", some "client", none⟩, [], none, [], false, none⟩

def sampleStart : State where
  conf := some ["[Interface]", "[Peer]", "PublicKey = kA=", "AllowedIPs = 10.10.0.2/32"]
  live := Table.empty.set "kA=" ["10.10.0.2/32"]
  links := Table.empty.set "wg0:kA=" clientEntry
  cache := .empty
  inFlight := .empty
  holder := none
  runs := fun _ => none
  calls := fun _ => none
  keys := []
  rotations := []

/-- A run up to the move of the metadata. -/
def rotating (i : ℕ) (privateKey : String) : List Act :=
  [.readStore i, .readDump i, .genkey i privateKey, .swap i true, .wgRemove i true, .wgAdd i true,
    .moveEntry i]

def returning (i : ℕ) : List Act := [.reread i, .finish i, .settle i]

/-- The public key a call has got. -/
def givenKey (s : State) (c : ℕ) : Option String :=
  match s.calls c with
  | some (.ended (some r)) => some r.publicKey
  | _ => none

def threeCalls : List Act :=
  [.ask 0 "wg0:kA="] ++ rotating 0 "kB" ++ [.ask 1 "wg0:kA="] ++ returning 0 ++
    [.settle 1, .ask 2 "wg0:kB="]

/-- The second call presents the new id before it is cached. -/
def earlyCall : List Act :=
  [.ask 0 "wg0:kA="] ++ rotating 0 "kB" ++ [.ask 1 "wg0:kB="] ++ rotating 1 "kC" ++ returning 0 ++
    returning 1

theorem sampleStart_start : Start "kA=" sampleStart :=
  ⟨fun _ => rfl, fun _ => rfl, rfl, rfl, rfl, rfl, rfl, by decide⟩

theorem sampleStart_registered : Registered "kA=" sampleStart := ⟨_, rfl, by decide +kernel⟩

/-- A call joins the run in flight, a later one finds the config cached under the new id. -/
theorem rotated_once_sample : ∃ (s : State) (c : ℕ) (r : PeerConfig),
    s.calls c = some (.ended (some r)) ∧ r.publicKey = "kB=" ∧
    (s.rotations = [("kA=", r.publicKey)] ∧
      (∀ c' r', s.calls c' = some (.ended (some r')) → r' = r)) := by
  have hrun : ((threeCalls.foldlM (Run.checked (step sampleWorld) fun s a =>
      Window sampleWorld "kA=" s a ∧ Undisturbed sampleWorld s a) sampleStart).map fun s =>
        givenKey s 2) =
      some (some "kB=") := by decide +kernel
  obtain ⟨s, hs, hkey⟩ := Option.map_eq_some_iff.mp hrun
  obtain ⟨r, hr, hrkey⟩ : ∃ r, s.calls 2 = some (.ended (some r)) ∧ r.publicKey = "kB=" := by
    unfold givenKey at hkey
    split at hkey
    · next r hr => exact ⟨r, hr, Option.some.inj hkey⟩
    · cases hkey
  have honce := (rotated_once sampleStart_start sampleStart_registered (Run.of_checked hs)).2 2 r hr
  exact ⟨s, 2, r, hr, hrkey, honce.1, honce.2.1⟩

/-- A call with the new id that comes before the config is cached rotates the key again, and the
first call has got a config that no peer of the hub answers to. -/
theorem rotated_twice : Start "kA=" sampleStart ∧ Registered "kA=" sampleStart ∧
    ∃ s, Run (Guarded (fun s a t => step sampleWorld s a = some t) (Window sampleWorld "kA="))
      sampleStart earlyCall s ∧ s.rotations = [("kA=", "kB="), ("kB=", "kC=")] ∧
    givenKey s 0 = some "kB=" ∧ givenKey s 1 = some "kC=" ∧
    s.conf = some ["[Interface]", "[Peer]", "PublicKey = kC=", "AllowedIPs = 10.10.0.2/32"] := by
  have hrun :
    ((earlyCall.foldlM (Run.checked (step sampleWorld) (Window sampleWorld "kA=")) sampleStart).map
      fun s =>
      (s.rotations, givenKey s 0, givenKey s 1, s.conf)) = some ([("kA=", "kB="), ("kB=", "kC=")],
        some "kB=",
        some "kC=",
          some ["[Interface]", "[Peer]", "PublicKey = kC=", "AllowedIPs = 10.10.0.2/32"]) := by
    decide +kernel
  obtain ⟨s, hs, h⟩ := Option.map_eq_some_iff.mp hrun
  injection h with hrotations h
  injection h with hfirst h
  injection h with hsecond hconf
  exact ⟨sampleStart_start, sampleStart_registered, s, Run.of_checked hs, hrotations, hfirst,
    hsecond, hconf⟩

end FloppyGuard.WireGuard.KeyRotation
