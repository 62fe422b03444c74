import FloppyGuard.Lib.Run
import FloppyGuard.Lib.Text
import Mathlib.Logic.Function.Basic

/-! `oidc.js` and its routes: a sign-in by way of the provider, between browsers that keep to their
cookies and others that present whatever they have been given. Codes and states are open to all;
what is sealed can be neither read nor made. -/
namespace FloppyGuard.Accounts.SsoFlow

def stateTtlMs : ℕ := 10 * 60 * 1000

def resultTtlMs : ℕ := 60 * 1000

structure Token where
  userId : ℕ
  ssoExp : ℕ
  jti : ℕ
deriving DecidableEq

/-- What is sealed. The random state and verifier of a flow go by one number. -/
inductive Payload
  | flow (nonce : ℕ)
  | result (token : Token)
deriving DecidableEq

/-- The value of a cookie that was sealed; `key` counts the starts of the process. -/
structure Sealed where
  key : ℕ
  payload : Payload
  sealedAt : ℕ
deriving DecidableEq

/-- `none` stands for a missing cookie and for one that does not decrypt. -/
abbrev Cookie := Option Sealed

/-- `unseal`: not past its time, and not from more than a minute ahead. -/
def unsealed (key : ℕ) (value : Cookie) (ttlMs now : ℕ) : Option Payload :=
  (value.filter fun v => v.key = key && now ≤ v.sealedAt + ttlMs && v.sealedAt ≤ now + 60000).map
    Sealed.payload

/-- The head of `completeLogin`. -/
def parked (key : ℕ) (cookie : Cookie) (state now : ℕ) : Option ℕ :=
  match unsealed key cookie stateTtlMs now with
  | some (.flow nonce) => if nonce = state then some nonce else none
  | _ => none

def openResult (key : ℕ) (cookie : Cookie) (now : ℕ) : Option Token :=
  match unsealed key cookie resultTtlMs now with
  | some (.result token) => some token
  | _ => none

inductive GroupsClaim
  | missing
  | text (group : List Char)
  | list (groups : List (List Char))

/-- The claims of `userinfo` that a sign-in reads. -/
structure Claims where
  email : List Char
  groups : GroupsClaim

/-- A code of the provider, for the challenge it was asked with and the account that signed in
there. -/
structure Grant where
  code : ℕ
  nonce : ℕ
  identity : ℕ
deriving DecidableEq

/-- The token endpoint: the verifier has to fit the challenge of the code. -/
structure Provider where
  redeem : List Grant → ℕ → ℕ → Option Grant
  of_redeem : ∀ {grants : List Grant} {code nonce : ℕ} {g : Grant},
    redeem grants code nonce = some g →
    g ∈ grants ∧ g.code = code ∧ g.nonce = nonce

structure Config extends Provider where
  requiredGroup : List Char
  /-- the lifetime in seconds -/
  expiry : ℕ
  toLowerCase : List Char → List Char

section Config

variable (cfg : Config)

def groupsFrom : GroupsClaim → List (List Char)
  | .missing => []
  | .text group => [cfg.toLowerCase (Text.trim group)]
  | .list groups => groups.map fun group => cfg.toLowerCase (Text.trim group)

/-- There is an address, and the required group is among the groups. -/
def admitted (claims : Claims) : Bool :=
  Text.trim (cfg.toLowerCase claims.email) ≠ [] && cfg.toLowerCase cfg.requiredGroup ∈
    groupsFrom cfg claims.groups

/-- The rest of `completeLogin`; `user` is what `ensureUser` returns, `none` if it rejects. -/
def completeLogin (claims : Claims) (user : Option ℕ) (jti now : ℕ) : Option Token :=
  if admitted cfg claims then user.map fun id => ⟨id, (now + cfg.expiry * 1000) / 1000, jti⟩
  else none

end Config

inductive Path
  | callback (code state : ℕ)
  | exchange
deriving DecidableEq

/-- A request under way, with the cookie it carries. -/
structure Message where
  browser : ℕ
  path : Path
  cookie : Cookie
deriving DecidableEq

/-- A `completeLogin` that waits for the provider. -/
structure Call where
  browser : ℕ
  code : ℕ
  nonce : ℕ
  time : ℕ
deriving DecidableEq

structure Start where
  browser : ℕ
  nonce : ℕ
  time : ℕ

structure Minted where
  token : Token
  call : Call
  identity : ℕ
  claims : Claims
  time : ℕ

structure Jar where
  flow : Cookie
  result : Cookie

/-- `known`: what the other browsers have been given. `starts`, `minted` and `received` record what
has happened. -/
structure State where
  key : ℕ
  next : ℕ
  jars : ℕ → Jar
  known : List Sealed
  messages : List Message
  calls : List Call
  grants : List Grant
  starts : List Start
  minted : List Minted
  received : List (ℕ × Token × ℕ)

inductive Act
  | start (browser now : ℕ)
  /-- someone signs in at the provider -/
  | authorize (g : Grant)
  | send (m : Message)
  /-- a request is handled, be it once or again -/
  | handle (m : Message) (now : ℕ)
  | finish (c : Call) (claims : Claims) (user : Option ℕ) (now : ℕ)
  | restart
  /-- the cookies of a browser run out -/
  | forget (browser : ℕ)

namespace State

variable (s : State)

def setJar (b : ℕ) (jar : Jar) : State := { s with jars := Function.update s.jars b jar }

def clearFlow (b : ℕ) : State := s.setJar b { s.jars b with flow := none }

def clearResult (b : ℕ) : State := s.setJar b { s.jars b with result := none }

/-- A new flow cookie, for a browser that keeps to its cookies or for one that does not. -/
def start (honest : ℕ → Bool) (b now : ℕ) : State :=
  let cookie : Sealed := ⟨s.key, .flow s.next, now⟩
  let s' := { s with next := s.next + 1, starts := ⟨b, s.next, now⟩ :: s.starts }
  if honest b then s'.setJar b { s.jars b with flow := some cookie }
  else { s' with known := cookie :: s.known }

/-- The token in a result cookie. -/
def mint (honest : ℕ → Bool) (c : Call) (identity : ℕ) (claims : Claims) (token : Token) (now : ℕ) :
    State :=
  let cookie : Sealed := ⟨s.key, .result token, now⟩
  let s' := { s with next := s.next + 1, minted := ⟨token, c, identity, claims, now⟩ :: s.minted }
  if honest c.browser then s'.setJar c.browser ⟨none, some cookie⟩
  else { s' with known := cookie :: s.known }

def handle (m : Message) (now : ℕ) : State :=
  match m.path with
  | .callback code state =>
    match parked s.key m.cookie state now with
    | some nonce => { s with calls := ⟨m.browser, code, nonce, now⟩ :: s.calls }
    | none => s.clearFlow m.browser
  | .exchange =>
    match openResult s.key m.cookie now with
    | some token =>
      { s.clearResult m.browser with received := (m.browser, token, now) :: s.received }
    | none => s.clearResult m.browser

/-- The provider is asked, then the account; each failure clears the flow cookie. -/
def finish (cfg : Config) (honest : ℕ → Bool) (c : Call) (claims : Claims) (user : Option ℕ)
    (now : ℕ) : State :=
  match cfg.redeem s.grants c.code c.nonce with
  | none => s.clearFlow c.browser
  | some g =>
    match completeLogin cfg claims user s.next now with
    | none => s.clearFlow c.browser
    | some token => s.mint honest c g.identity claims token now

/-- The cookie a browser sends: its own, or one that any of the others has been given. -/
def Sends (honest : ℕ → Bool) (m : Message) : Prop :=
  if honest m.browser then
    m.cookie = match m.path with
      | .callback .. => (s.jars m.browser).flow
      | .exchange => (s.jars m.browser).result
  else ∀ c ∈ m.cookie, c ∈ s.known

instance (honest : ℕ → Bool) (m : Message) : Decidable (s.Sends honest m) := by
  unfold Sends
  exact inferInstance

end State

def step (cfg : Config) (honest : ℕ → Bool) (s : State) : Act → Option State
  | .start b now => some (s.start honest b now)
  | .authorize g =>
    if g.code ∈ s.grants.map Grant.code then none else some { s with grants := g :: s.grants }
  | .send m => if s.Sends honest m then some { s with messages := m :: s.messages } else none
  | .handle m now => if m ∈ s.messages then some (s.handle m now) else none
  | .finish c claims user now =>
    if c ∈ s.calls then some (s.finish cfg honest c claims user now) else none
  | .restart => some { s with key := s.key + 1, calls := [] }
  | .forget b => some (s.setJar b ⟨none, none⟩)

abbrev Step (cfg : Config) (honest : ℕ → Bool) (s : State) (a : Act) (t : State) : Prop :=
  step cfg honest s a = some t

def initial : State := ⟨0, 0, fun _ => ⟨none, none⟩, [], [], [], [], [], [], []⟩

variable {cfg : Config} {honest : ℕ → Bool} {s t : State} {a : Act} {xs : List Act}
  {b b' b'' now ttlMs : ℕ} {c : Sealed}
  {cookie : Cookie} {m : Message} {call : Call} {token : Token} {jar : Jar}

/-- One browser, or two that do not keep to their cookies. -/
def Together (honest : ℕ → Bool) (b b' : ℕ) : Prop := b = b' ∨ honest b = false ∧ honest b' = false

theorem Together.trans (h : Together honest b b') (h' : Together honest b' b'') :
    Together honest b b'' := by
  rcases h with rfl | h
  · exact h'
  · rcases h' with rfl | h'
    · exact .inr h
    · exact .inr ⟨h.1, h'.2⟩

theorem Together.eq (h : Together honest b b') (hb : honest b = true ∨ honest b' = true) :
    b = b' := by
  rcases h with h | ⟨hno, hno'⟩
  · exact h
  · rw [hno, hno'] at hb
    rcases hb with hb | hb <;> cases hb

/-- A sealed value was made for the browser, or both are among the others. -/
def Given (honest : ℕ → Bool) (s : State) (b : ℕ) : Sealed → Prop
  | ⟨_, .flow nonce, sealedAt⟩ =>
    ∃ x ∈ s.starts, x.nonce = nonce ∧ x.time = sealedAt ∧ Together honest b x.browser
  | ⟨_, .result token, sealedAt⟩ =>
    ∃ x ∈ s.minted, x.token = token ∧ x.time = sealedAt ∧ Together honest b x.call.browser

/-- A call goes back to a flow that its browser began at most ten minutes before. -/
def Begun (honest : ℕ → Bool) (s : State) (call : Call) : Prop :=
  ∃ x ∈ s.starts, x.nonce = call.nonce ∧ Together honest call.browser x.browser ∧
    call.time ≤ x.time + stateTtlMs

/-- A token was made for an identity that the provider had signed in for this very flow, and that
may come in. -/
def Sound (cfg : Config) (honest : ℕ → Bool) (s : State) (x : Minted) : Prop :=
  Begun honest s x.call ∧ ⟨x.call.code, x.call.nonce, x.identity⟩ ∈ s.grants ∧ admitted cfg x.claims

structure Inv (cfg : Config) (honest : ℕ → Bool) (s : State) : Prop where
  starts_lt : ∀ x ∈ s.starts, x.nonce < s.next
  starts_unique : ∀ x ∈ s.starts, ∀ y ∈ s.starts, x.nonce = y.nonce → x = y
  minted_lt : ∀ x ∈ s.minted, x.token.jti < s.next
  minted_unique : ∀ x ∈ s.minted, ∀ y ∈ s.minted, x.token.jti = y.token.jti → x = y
  flow : ∀ b, honest b = true → ∀ c ∈ (s.jars b).flow, Given honest s b c
  result : ∀ b, honest b = true → ∀ c ∈ (s.jars b).result, Given honest s b c
  known : ∀ c ∈ s.known, ∀ b, honest b = false → Given honest s b c
  messages : ∀ m ∈ s.messages, ∀ c ∈ m.cookie, Given honest s m.browser c
  calls : ∀ call ∈ s.calls, Begun honest s call
  minted : ∀ x ∈ s.minted, Sound cfg honest s x
  received : ∀ b token now, (b, token, now) ∈ s.received → ∃ x ∈ s.minted, x.token = token ∧
    Together honest b x.call.browser ∧ now ≤ x.time + resultTtlMs

theorem inv_initial : Inv cfg honest initial := by
  constructor <;> simp [initial]

/-- The histories of one state are those of another, or longer. -/
structure Extends (s t : State) : Prop where
  starts : s.starts ⊆ t.starts
  minted : s.minted ⊆ t.minted
  grants : s.grants ⊆ t.grants

theorem Given.mono (h : Given honest s b c) (he : Extends s t) : Given honest t b c := by
  obtain ⟨key, payload, sealedAt⟩ := c
  cases payload with
  | flow nonce =>
    obtain ⟨x, hx, h⟩ := h
    exact ⟨x, he.starts hx, h⟩
  | result token =>
    obtain ⟨x, hx, h⟩ := h
    exact ⟨x, he.minted hx, h⟩

theorem Begun.mono (h : Begun honest s call) (he : Extends s t) : Begun honest t call := by
  obtain ⟨x, hx, h⟩ := h
  exact ⟨x, he.starts hx, h⟩

theorem Sound.mono {x : Minted} (h : Sound cfg honest s x) (he : Extends s t) :
    Sound cfg honest t x :=
  ⟨h.1.mono he, he.grants h.2.1, h.2.2⟩

/-- What a value unseals to was sealed in it, and not too long ago. -/
theorem of_unsealed {key : ℕ} {payload : Payload}
    (h : unsealed key cookie ttlMs now = some payload) :
    ∃ c ∈ cookie, c.payload = payload ∧ now ≤ c.sealedAt + ttlMs := by
  obtain ⟨c, hc, hpayload⟩ := Option.map_eq_some_iff.mp h
  obtain ⟨hc, hok⟩ := Option.filter_eq_some_iff.mp hc
  simp only [Bool.and_eq_true, decide_eq_true_eq] at hok
  exact ⟨c, hc, hpayload, hok.1.2⟩

theorem of_parked {key state nonce : ℕ} (h : parked key cookie state now = some nonce) :
    ∃ sealedAt k, cookie = some ⟨k, .flow nonce, sealedAt⟩ ∧ now ≤ sealedAt + stateTtlMs := by
  rw [parked] at h
  split at h
  · next n hunsealed =>
    split at h
    · obtain rfl := Option.some.inj h
      obtain ⟨⟨k, payload, sealedAt⟩, hc, rfl, hnow⟩ := of_unsealed hunsealed
      exact ⟨sealedAt, k, hc, hnow⟩
    · cases h
  · cases h

theorem of_openResult {key : ℕ} (h : openResult key cookie now = some token) :
    ∃ sealedAt k, cookie = some ⟨k, .result token, sealedAt⟩ ∧ now ≤ sealedAt + resultTtlMs := by
  rw [openResult] at h
  split at h
  · next tok hunsealed =>
    obtain rfl := Option.some.inj h
    obtain ⟨⟨k, payload, sealedAt⟩, hc, rfl, hnow⟩ := of_unsealed hunsealed
    exact ⟨sealedAt, k, hc, hnow⟩
  · cases h

theorem of_completeLogin {claims : Claims} {user : Option ℕ} {jti : ℕ}
    (h : completeLogin cfg claims user jti now = some token) :
    admitted cfg claims ∧ token.jti = jti := by
  rw [completeLogin] at h
  split at h
  · next hadmitted =>
    obtain ⟨id, -, rfl⟩ := Option.map_eq_some_iff.mp h
    exact ⟨hadmitted, rfl⟩
  · cases h

/-! Each step keeps the invariant. -/

theorem inv_setJar (h : Inv cfg honest s)
    (hflow : honest b = true → ∀ c ∈ jar.flow, Given honest s b c)
    (hresult : honest b = true → ∀ c ∈ jar.result, Given honest s b c) :
    Inv cfg honest (s.setJar b jar) := by
  have hjar : ∀ b', (s.setJar b jar).jars b' = if b' = b then jar else s.jars b' :=
    fun b' => Function.update_apply ..
  refine { h with flow := ?_, result := ?_ }
  · intro b' hb' c hc
    rw [hjar] at hc
    split at hc
    · next he => exact he ▸ hflow (he ▸ hb') c hc
    · exact h.flow b' hb' c hc
  · intro b' hb' c hc
    rw [hjar] at hc
    split at hc
    · next he => exact he ▸ hresult (he ▸ hb') c hc
    · exact h.result b' hb' c hc

theorem inv_clearFlow (h : Inv cfg honest s) : Inv cfg honest (s.clearFlow b) := by
  apply inv_setJar h
  · intro _ c hc
    cases hc
  · intro hb
    exact h.result b hb

theorem inv_clearResult (h : Inv cfg honest s) : Inv cfg honest (s.clearResult b) := by
  apply inv_setJar h
  · intro hb
    exact h.flow b hb
  · intro _ c hc
    cases hc

theorem given_of_sends (h : Inv cfg honest s) (hm : s.Sends honest m) (hc : c ∈ m.cookie) :
    Given honest s m.browser c := by
  rw [State.Sends] at hm
  split at hm
  · next hb =>
    obtain ⟨browser, path, cookie⟩ := m
    cases path with
    | callback code state => exact h.flow browser hb c (hm.symm.trans hc)
    | exchange => exact h.result browser hb c (hm.symm.trans hc)
  · next hb => exact h.known c (hm c hc) m.browser (Bool.eq_false_iff.mpr hb)

theorem inv_handle (h : Inv cfg honest s) (hm : m ∈ s.messages) :
    Inv cfg honest (s.handle m now) := by
  rw [State.handle]
  split
  · split
    · next code state _ nonce hparked =>
      obtain ⟨sealedAt, k, hcookie, hnow⟩ := of_parked hparked
      obtain ⟨x, hx, hnonce, htime, htogether⟩ := h.messages m hm _ hcookie
      refine { h with calls := ?_ }
      intro call hcall
      rcases List.mem_cons.mp hcall with rfl | hcall
      · exact ⟨x, hx, hnonce, htogether, htime ▸ hnow⟩
      · exact h.calls call hcall
    · exact inv_clearFlow h
  · split
    · next token hopen =>
      obtain ⟨sealedAt, k, hcookie, hnow⟩ := of_openResult hopen
      obtain ⟨x, hx, htoken, htime, htogether⟩ := h.messages m hm _ hcookie
      refine { inv_clearResult (b := m.browser) h with received := ?_ }
      intro b tok now' hreceived
      rcases List.mem_cons.mp hreceived with he | hreceived
      · cases he
        exact ⟨x, hx, htoken, htogether, htime ▸ hnow⟩
      · exact h.received b tok now' hreceived
    · exact inv_clearResult h

/-- A longer history, with what is new in it, in a state that has given nothing out yet. -/
theorem inv_extend (h : Inv cfg honest s) (he : Extends s t)
    (hrest : t.jars = s.jars ∧ t.known = s.known ∧
    t.messages = s.messages ∧ t.calls = s.calls ∧ t.received = s.received) (hnext : s.next ≤ t.next)
    (hstarts : ∀ x ∈ t.starts, x ∈ s.starts ∨ x.nonce = s.next ∧ s.next < t.next ∧ ∀ y ∈ t.starts,
      y ∉ s.starts → y = x)
    (hminted : ∀ x ∈ t.minted, x ∈ s.minted ∨ Sound cfg honest t x ∧ x.token.jti = s.next ∧
      s.next < t.next ∧
      ∀ y ∈ t.minted, y ∉ s.minted → y = x) : Inv cfg honest t := by
  obtain ⟨hjars, hknown, hmessages, hcalls, hreceived⟩ := hrest
  refine ⟨?_, ?_, ?_, ?_, ?_, ?_, ?_, ?_, ?_, ?_, ?_⟩
  · intro x hx
    rcases hstarts x hx with hx | ⟨hx, hlt, -⟩
    · exact (h.starts_lt x hx).trans_le hnext
    · omega
  · intro x hx y hy hxy
    rcases hstarts x hx with hx' | ⟨hx', -, hnew⟩
    · rcases hstarts y hy with hy' | ⟨hy', -, -⟩
      · exact h.starts_unique x hx' y hy' hxy
      · exact absurd (h.starts_lt x hx') (by omega)
    · by_cases hy' : y ∈ s.starts
      · exact absurd (h.starts_lt y hy') (by omega)
      · exact (hnew y hy hy').symm
  · intro x hx
    rcases hminted x hx with hx | ⟨-, hx, hlt, -⟩
    · exact (h.minted_lt x hx).trans_le hnext
    · omega
  · intro x hx y hy hxy
    rcases hminted x hx with hx' | ⟨-, hx', -, hnew⟩
    · rcases hminted y hy with hy' | ⟨-, hy', -, -⟩
      · exact h.minted_unique x hx' y hy' hxy
      · exact absurd (h.minted_lt x hx') (by omega)
    · by_cases hy' : y ∈ s.minted
      · exact absurd (h.minted_lt y hy') (by omega)
      · exact (hnew y hy hy').symm
  · intro b hb c hc
    exact (h.flow b hb c (hjars ▸ hc)).mono he
  · intro b hb c hc
    exact (h.result b hb c (hjars ▸ hc)).mono he
  · intro c hc b hb
    exact (h.known c (hknown ▸ hc) b hb).mono he
  · intro m hm c hc
    exact (h.messages m (hmessages ▸ hm) c hc).mono he
  · intro call hcall
    exact (h.calls call (hcalls ▸ hcall)).mono he
  · intro x hx
    rcases hminted x hx with hx | ⟨hx, -⟩
    · exact (h.minted x hx).mono he
    · exact hx
  · intro b token now hr
    obtain ⟨x, hx, hrest⟩ := h.received b token now (hreceived ▸ hr)
    exact ⟨x, he.minted hx, hrest⟩

theorem inv_giveOut (h : Inv cfg honest s) (hc : ∀ b', Together honest b' b → Given honest s b' c) :
    Inv cfg honest { s with known := if honest b then s.known else c :: s.known } := by
  refine { h with known := ?_ }
  intro c' hc' b' hb'
  split at hc'
  · exact h.known c' hc' b' hb'
  · next hb =>
    rcases List.mem_cons.mp hc' with rfl | hc'
    · exact hc b' (.inr ⟨hb', Bool.eq_false_iff.mpr hb⟩)
    · exact h.known c' hc' b' hb'

theorem inv_start (h : Inv cfg honest s) : Inv cfg honest (s.start honest b now) := by
  have hext : Extends s { s with next := s.next + 1, starts := ⟨b, s.next, now⟩ :: s.starts } :=
    ⟨List.subset_cons_self _ _, List.Subset.refl _, List.Subset.refl _⟩
  have hbase : Inv cfg honest
      { s with next := s.next + 1, starts := ⟨b, s.next, now⟩ :: s.starts } := by
    apply inv_extend h hext ⟨rfl, rfl, rfl, rfl, rfl⟩ (Nat.le_succ _)
    · intro x hx
      rcases List.mem_cons.mp hx with rfl | hx
      · refine .inr ⟨rfl, Nat.lt_succ_self _, fun y hy hno => ?_⟩
        exact (List.mem_cons.mp hy).resolve_right hno
      · exact .inl hx
    · intro x hx
      exact .inl hx
  have hgiven : ∀ b', Together honest b' b →
    Given honest { s with next := s.next + 1, starts := ⟨b, s.next, now⟩ :: s.starts } b'
      ⟨s.key, .flow s.next, now⟩ := fun b' hb' => ⟨_, List.mem_cons_self, rfl, rfl, hb'⟩
  rw [State.start]
  split
  · next hb =>
    apply inv_setJar hbase
    · intro _ c hc
      obtain rfl := Option.some.inj hc
      exact hgiven b (.inl rfl)
    · intro _
      exact hbase.result b hb
  · next hb => simpa [hb] using inv_giveOut hbase hgiven

theorem inv_mint {identity : ℕ} {claims : Claims} (h : Inv cfg honest s) (hcall : call ∈ s.calls)
    (hgrant : ⟨call.code, call.nonce, identity⟩ ∈ s.grants) (hadmitted : admitted cfg claims)
    (hjti : token.jti = s.next) :
    Inv cfg honest (s.mint honest call identity claims token now) := by
  have hext : Extends s
      { s with next := s.next + 1, minted := ⟨token, call, identity, claims, now⟩ :: s.minted } :=
    ⟨List.Subset.refl _, List.subset_cons_self _ _, List.Subset.refl _⟩
  have hbase : Inv cfg honest
      { s with
        next := s.next + 1, minted := ⟨token, call, identity, claims, now⟩ :: s.minted } := by
    apply inv_extend h hext ⟨rfl, rfl, rfl, rfl, rfl⟩ (Nat.le_succ _)
    · intro x hx
      exact .inl hx
    · intro x hx
      rcases List.mem_cons.mp hx with rfl | hx
      · refine .inr ⟨⟨(h.calls call hcall).mono hext, hgrant, hadmitted⟩, hjti, Nat.lt_succ_self _,
          fun y hy hno => ?_⟩
        exact (List.mem_cons.mp hy).resolve_right hno
      · exact .inl hx
  have hgiven : ∀ b', Together honest b' call.browser → Given honest
      { s with next := s.next + 1, minted := ⟨token, call, identity, claims, now⟩ :: s.minted } b'
        ⟨s.key, .result token, now⟩ :=
    fun b' hb' => ⟨_, List.mem_cons_self, rfl, rfl, hb'⟩
  rw [State.mint]
  split
  · apply inv_setJar hbase
    · intro _ c hc
      cases hc
    · intro _ c hc
      obtain rfl := Option.some.inj hc
      exact hgiven call.browser (.inl rfl)
  · next hb => simpa [hb] using inv_giveOut hbase hgiven

theorem inv_finish {claims : Claims} {user : Option ℕ} (h : Inv cfg honest s)
    (hcall : call ∈ s.calls) :
    Inv cfg honest (s.finish cfg honest call claims user now) := by
  rw [State.finish]
  split
  · exact inv_clearFlow h
  · next g hredeem =>
    split
    · exact inv_clearFlow h
    · next token hlogin =>
      obtain ⟨hg, hcode, hnonce⟩ := cfg.of_redeem hredeem
      obtain ⟨hadmitted, hjti⟩ := of_completeLogin hlogin
      have hgrant : ⟨call.code, call.nonce, g.identity⟩ ∈ s.grants := by
        rw [← hcode, ← hnonce]
        exact hg
      exact inv_mint h hcall hgrant hadmitted hjti

theorem step_inv (hs : Step cfg honest s a t) (h : Inv cfg honest s) : Inv cfg honest t := by
  cases a with
  | start b now =>
    cases hs
    exact inv_start h
  | authorize g =>
    simp only [Step, step, Option.ite_none_left_eq_some, Option.some.injEq] at hs
    obtain ⟨-, rfl⟩ := hs
    refine { h with minted := fun x hx => ?_ }
    exact (h.minted x hx).mono ⟨List.Subset.refl _, List.Subset.refl _, List.subset_cons_self _ _⟩
  | send m =>
    simp only [Step, step, Option.ite_none_right_eq_some, Option.some.injEq] at hs
    obtain ⟨hm, rfl⟩ := hs
    refine { h with messages := fun m' hm' c hc => ?_ }
    have hold : Given honest s m'.browser c := by
      rcases List.mem_cons.mp hm' with rfl | hm'
      · exact given_of_sends h hm hc
      · exact h.messages m' hm' c hc
    exact hold
  | handle m now =>
    simp only [Step, step, Option.ite_none_right_eq_some, Option.some.injEq] at hs
    obtain ⟨hm, rfl⟩ := hs
    exact inv_handle h hm
  | finish call claims user now =>
    simp only [Step, step, Option.ite_none_right_eq_some, Option.some.injEq] at hs
    obtain ⟨hcall, rfl⟩ := hs
    exact inv_finish h hcall
  | restart =>
    cases hs
    exact { h with calls := fun _ hcall => absurd hcall List.not_mem_nil }
  | forget b =>
    cases hs
    apply inv_setJar h
    · intro _ c hc
      cases hc
    · intro _ c hc
      cases hc

theorem run_inv (h : Run (Step cfg honest) initial xs s) : Inv cfg honest s :=
  h.invariant (I := Inv cfg honest) (fun _ _ _ => step_inv) inv_initial

/-- Whatever the others send or make it send, a browser that keeps to its cookies is signed in by a
flow that it began itself: at the provider, the identity of its token has signed in for this flow,
and may come in. Its way back was no later than ten minutes, and it has fetched the token within a
minute. -/
theorem signed_in_by_own_flow (h : Run (Step cfg honest) initial xs s) (hb : honest b = true)
    (hr : (b, token, now) ∈ s.received) : ∃ m ∈ s.minted, m.token = token ∧ admitted cfg m.claims ∧
      ⟨m.call.code, m.call.nonce, m.identity⟩ ∈ s.grants ∧ now ≤ m.time + resultTtlMs ∧
      ∃ x ∈ s.starts, x.nonce = m.call.nonce ∧ x.browser = b ∧
      m.call.time ≤ x.time + stateTtlMs := by
  have hinv := run_inv h
  obtain ⟨m, hm, htoken, htogether, hnow⟩ := hinv.received b token now hr
  obtain ⟨⟨x, hx, hnonce, hbegun, htime⟩, hgrant, hadmitted⟩ := hinv.minted m hm
  have hown : b = x.browser := (htogether.trans hbegun).eq (.inl hb)
  exact ⟨m, hm, htoken, hadmitted, hgrant, hnow, x, hx, hnonce, hown.symm, htime⟩

/-- Where an identity signs in at the provider for the flows of one such browser only, no other
browser gets a token of it, although codes and states are known to all. -/
theorem received_by_own_browser (h : Run (Step cfg honest) initial xs s) (hb : honest b = true)
    {m : Minted} (hm : m ∈ s.minted)
    (hown : ∀ g ∈ s.grants, g.identity = m.identity → ∃ x ∈ s.starts, x.nonce = g.nonce ∧
      x.browser = b)
    (hr : (b', m.token, now) ∈ s.received) : b' = b := by
  have hinv := run_inv h
  obtain ⟨m', hm', htoken, htogether, -⟩ := hinv.received b' m.token now hr
  obtain rfl := hinv.minted_unique m' hm' m hm (congrArg Token.jti htoken)
  obtain ⟨⟨x, hx, hnonce, hbegun, -⟩, hgrant, -⟩ := hinv.minted m' hm
  obtain ⟨y, hy, hynonce, hybrowser⟩ := hown _ hgrant rfl
  have hxb : x.browser = b := by
    rw [hinv.starts_unique x hx y hy (hnonce.trans hynonce.symm)]
    exact hybrowser
  exact ((htogether.trans hbegun).eq (.inr (hxb ▸ hb))).trans hxb

/-- Browser 1 keeps to its cookies and signs in; browser 2 uses its code and its state with a flow
of its own. -/
def sampleRun : List Act :=
  [.start 1 1000, .start 2 2000, .authorize ⟨77, 0, 5⟩,
    .send ⟨2, .callback 77 0, some ⟨0, .flow 1, 2000⟩⟩,
    .handle ⟨2, .callback 77 0, some ⟨0, .flow 1, 2000⟩⟩ 3000,
      .send ⟨1, .callback 77 0, some ⟨0, .flow 0, 1000⟩⟩,
    .handle ⟨1, .callback 77 0, some ⟨0, .flow 0, 1000⟩⟩ 4000,
    .finish ⟨1, 77, 0, 4000⟩ ⟨"a@b".toList, .text "Admins".toList⟩ (some 9) 5000,
    .send ⟨1, .exchange, some ⟨0, .result ⟨9, 28805, 2⟩, 5000⟩⟩,
      .handle ⟨1, .exchange, some ⟨0, .result ⟨9, 28805, 2⟩, 5000⟩⟩ 6000]

def sampleConfig : Config where
  redeem grants code nonce := (grants.find? fun g => g.code = code).filter fun g => g.nonce = nonce
  of_redeem h := by
    obtain ⟨hfind, hnonce⟩ := Option.filter_eq_some_iff.mp h
    have hcode := List.find?_some hfind
    exact ⟨List.mem_of_find?_eq_some hfind, of_decide_eq_true hcode, of_decide_eq_true hnonce⟩
  requiredGroup := "admins".toList
  expiry := 8 * 3600
  toLowerCase := List.map Char.toLower

theorem sampleRun_received : ∃ s, Run (Step sampleConfig (· = 1)) initial sampleRun s ∧
    ∃ m ∈ s.minted, m.token = ⟨9, 28805, 2⟩ ∧
    m.identity = 5 ∧ (1, m.token, 6000) ∈ s.received ∧ s.grants = [⟨77, 0, 5⟩] ∧
    s.starts = [⟨2, 1, 2000⟩, ⟨1, 0, 1000⟩] := by
  have hrun : ∃ s, sampleRun.foldlM (step sampleConfig (· = 1)) initial = some s ∧
    s.received = [(1, ⟨9, 28805, 2⟩, 6000)] ∧
      s.minted =
        [⟨⟨9, 28805, 2⟩, ⟨1, 77, 0, 4000⟩, 5, ⟨"a@b".toList, .text "Admins".toList⟩, 5000⟩] ∧
      s.grants = [⟨77, 0, 5⟩] ∧ s.starts = [⟨2, 1, 2000⟩, ⟨1, 0, 1000⟩] :=
    ⟨_, rfl, rfl, rfl, rfl, rfl⟩
  obtain ⟨s, hs, hreceived, hminted, hgrants, hstarts⟩ := hrun
  refine ⟨s, Run.of_foldlM hs, _, hminted ▸ List.mem_singleton_self _, rfl, rfl, ?_, hgrants,
    hstarts⟩
  exact hreceived ▸ List.mem_singleton_self _

theorem signed_in_sampleRun :
    ∃ s, Run (Step sampleConfig (· = 1)) initial sampleRun s ∧ ∃ m ∈ s.minted,
    m.token = ⟨9, 28805, 2⟩ ∧ admitted sampleConfig m.claims ∧
    ⟨m.call.code, m.call.nonce, m.identity⟩ ∈ s.grants ∧
      6000 ≤ m.time + resultTtlMs ∧ ∃ x ∈ s.starts, x.nonce = m.call.nonce ∧ x.browser = 1 ∧
        m.call.time ≤ x.time + stateTtlMs := by
  obtain ⟨s, hs, m, hm, htoken, -, hreceived, -, -⟩ := sampleRun_received
  exact ⟨s, hs, signed_in_by_own_flow hs (decide_eq_true rfl) (htoken ▸ hreceived)⟩

theorem received_sampleRun :
    ∃ s, Run (Step sampleConfig (· = 1)) initial sampleRun s ∧ ∃ m ∈ s.minted, ∀ b' now,
    (b', m.token, now) ∈ s.received → b' = 1 := by
  obtain ⟨s, hs, m, hm, -, -, -, hgrants, hstarts⟩ := sampleRun_received
  refine ⟨s, hs, m, hm, fun b' now hr => received_by_own_browser hs (decide_eq_true rfl) hm ?_ hr⟩
  intro g hg _
  rw [hgrants] at hg
  obtain rfl := List.mem_singleton.mp hg
  exact ⟨⟨1, 0, 1000⟩, by simp [hstarts], rfl, rfl⟩

end FloppyGuard.Accounts.SsoFlow
