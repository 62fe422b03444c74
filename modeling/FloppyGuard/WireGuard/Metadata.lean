import FloppyGuard.Cidr
import FloppyGuard.Lib.Checked
import FloppyGuard.Lib.Table

/-! `wireguard.js`: the metadata of the links, and the tests on network texts. -/
namespace FloppyGuard.WireGuard

open Text

/-- Members of `LINK_TYPES`. -/
def linkTypes : List String := ["client", "site-to-site", "hub-link", "imported", "unknown"]

def normalizeLinkType (type : Option String) : Option String :=
  match type with
  | none | some "" => none
  | some "site-link" => some "site-to-site"
  | some type => if type ∈ linkTypes then some type else none

theorem normalizeLinkType_eq_client {type : Option String} :
    normalizeLinkType type = some "client" ↔ type = some "client" := by
  constructor
  · intro h
    unfold normalizeLinkType at h
    split at h
    · cases h
    · cases h
    · simp at h
    · split at h
      · exact h
      · cases h
  · rintro rfl
    decide

/-- What the store keeps of a link. `importedNetworks` is `none` when the entry has no such key. -/
structure LinkMeta where
  name : Option String
  type : Option String
  importedNetworks : Option (List String)
deriving DecidableEq

/-- `/\/32$/` or `/\/128$/`. -/
def isHostRoute (target : String) : Bool :=
  "/32".toList.isSuffixOf target.toList || "/128".toList.isSuffixOf target.toList

theorem isHostRoute_32 (s : String) : isHostRoute (s ++ "/32") = true := by
  have hsuffix : "/32".toList <:+ (s ++ "/32").toList := by
    rw [String.toList_append]
    exact List.suffix_append _ _
  rw [isHostRoute, List.isSuffixOf_iff_suffix.mpr hsuffix, Bool.true_or]

def minNetworkPrefix : ℕ := 8

/-- What follows the last slash. -/
def afterSlash (s : List Char) : Option (List Char) :=
  if '/' ∈ s then some (s.reverse.takeWhile (· ≠ '/')).reverse else none

def isAcceptableNetworkPrefix (cidr : String) : Bool :=
  match (afterSlash (trim cidr.toList)).bind (number 2) with
  | some n => minNetworkPrefix ≤ n
  | none => false

theorem ne_empty_of_acceptable {cidr : String} (h : isAcceptableNetworkPrefix cidr = true) :
    cidr ≠ "" := by
  rintro rfl
  revert h
  decide

theorem afterSlash_cut {a p : List Char} (hp : '/' ∉ p) : afterSlash (a ++ '/' :: p) = some p := by
  have htake : (a ++ '/' :: p).reverse.takeWhile (· ≠ '/') = p.reverse := by
    rw [List.reverse_append, List.reverse_cons, List.append_assoc, List.takeWhile_append_of_pos]
    · simp
    · intro c hc
      exact decide_eq_true fun he => hp (he ▸ List.mem_reverse.mp hc)
  rw [afterSlash, if_pos (by simp), htake, List.reverse_reverse]

theorem afterSlash_render (c : Cidr) :
    (afterSlash c.render.toList).bind (number 2) = some c.len := by
  have hlen : number 2 (Nat.toDigits 10 c.len) = some c.len :=
    number_toDigits (by omega) (by have := c.len_le; omega)
  rw [Cidr.render, String.toList_ofList, Cidr.toText, afterSlash_cut (not_mem_toDigits (by decide)),
    Option.bind_some, hlen]

theorem isAcceptableNetworkPrefix_render (c : Cidr) :
    isAcceptableNetworkPrefix c.render = true ↔ minNetworkPrefix ≤ c.len := by
  have htrim : trim c.render.toList = c.render.toList := by
    rw [show c.render.toList = c.toText from String.toList_ofList,
      trim_of_forall isSpace_of_mem_toText]
  rw [isAcceptableNetworkPrefix, htrim, afterSlash_render]
  simp

/-- A network with its prefix, host bits masked off; a bare address is refused. -/
def canonicalizeIpv4Network (value : String) : Option Cidr :=
  if '/' ∈ value.toList then canonicalCidr value else none

/-! `Address` lines. -/

/-- The text after `/^\s*Address\s*=\s*/i`. -/
def addressValue (line : List Char) : Option (List Char) :=
  let s := line.dropWhile isSpace
  if (s.take 7).map Char.toLower = "address".toList then
    match (s.drop 7).dropWhile isSpace with
    | '=' :: rest => some (rest.dropWhile isSpace)
    | _ => none
  else none

/-- `/\d{1,3}(?:\.\d{1,3}){3}/` on the whole text. -/
def isDotted (addr : List Char) : Bool :=
  (addr.splitOn '.').length = 4 && (addr.splitOn '.').all fun group => (number 3 group).isSome

/-- The address and the digits of the prefix of a network the text starts with. -/
def leadingCidr (s : List Char) : Option (List Char × List Char) :=
  let addr := s.takeWhile (· ≠ '/')
  let digits := ((s.dropWhile (· ≠ '/')).tail.takeWhile Char.isDigit).take 2
  if isDotted addr ∧ digits ≠ [] then some (addr, digits) else none

/-- A link id: the interface and the public key. -/
def linkId (ifaceName pubkey : String) : String := ifaceName ++ ":" ++ pubkey

/-! The peers of a conf. -/

/-- `split(",")`, each part trimmed, the empty ones left out. -/
def commaList (v : List Char) : List String :=
  ((v.splitOn ',').map trim).filter (· ≠ []) |>.map String.ofList

/-- The text before and after the first `=`, trimmed. -/
def keyValue (line : List Char) : Option (List Char × List Char) :=
  if '=' ∈ line then some (trim (line.takeWhile (· ≠ '=')), trim (line.dropWhile (· ≠ '=')).tail)
  else none

structure PeerScan where
  peers : Table String (List String)
  inPeer : Bool
  currentPubKey : Option String
  currentAllowedIPs : List String

namespace PeerScan

def init : PeerScan := ⟨.empty, false, none, []⟩

def flush (s : PeerScan) : Table String (List String) :=
  match s.inPeer, s.currentPubKey with
  | true, some key => if key = "" then s.peers else s.peers.set key s.currentAllowedIPs
  | _, _ => s.peers

def line (s : PeerScan) (rawLine : String) : PeerScan :=
  let trimmed := trim rawLine.toList
  if trimmed = "[Peer]".toList then ⟨s.flush, true, none, []⟩
  else if "[".toList.isPrefixOf trimmed then ⟨s.flush, false, none, s.currentAllowedIPs⟩
  else if "#".toList.isPrefixOf trimmed then s
  else match keyValue trimmed with
    | none => s
    | some (k, v) =>
      if s.inPeer then
        if k = "PublicKey".toList then { s with currentPubKey := some (String.ofList v) }
        else if k = "AllowedIPs".toList then { s with currentAllowedIPs := commaList v }
        else s
      else s

end PeerScan

def parsePeersFromConf (lines : List String) : Table String (List String) :=
  (lines.foldl PeerScan.line PeerScan.init).flush

/-- An entry of a comma-separated list is not empty and has no comma. -/
def Listed (entry : String) : Prop := entry ≠ "" ∧ ',' ∉ entry.toList

theorem listed_commaList {v : List Char} : ∀ entry ∈ commaList v, Listed entry := by
  intro entry h
  obtain ⟨l, hl, rfl⟩ := List.mem_map.mp h
  obtain ⟨hl, hne⟩ := List.mem_filter.mp hl
  obtain ⟨part, hpart, rfl⟩ := List.mem_map.mp hl
  refine ⟨fun he => ?_, fun hc => ?_⟩
  · simp [String.ofList_eq_empty_iff.mp he] at hne
  · rw [String.toList_ofList] at hc
    exact not_mem_of_mem_splitOn part hpart (mem_of_mem_trim hc)

/-- An entry as a list is read: without outer white space too. -/
def Trimmed (entry : String) : Prop := Listed entry ∧ trim entry.toList = entry.toList

theorem trimmed_commaList {v : List Char} : ∀ entry ∈ commaList v, Trimmed entry := by
  intro entry h
  refine ⟨listed_commaList entry h, ?_⟩
  obtain ⟨l, hl, rfl⟩ := List.mem_map.mp h
  obtain ⟨part, -, rfl⟩ := List.mem_map.mp (List.mem_filter.mp hl).1
  rw [String.toList_ofList, trim_trim]

theorem Trimmed.ends {entry : String} (h : Trimmed entry) :
    entry.toList ≠ [] ∧ trim entry.toList = entry.toList :=
  ⟨mt String.toList_eq_nil_iff.mp h.1.1, h.2⟩

/-- A list of such entries is read back as it was written. -/
theorem commaList_join {cs : List String} (h : ∀ c ∈ cs, Trimmed c) :
    commaList (", ".intercalate cs).toList = cs := by
  have hentries : ∀ l ∈ cs.map String.toList, (l ≠ [] ∧ trim l = l) ∧ ',' ∉ l := by
    intro l hl
    obtain ⟨c, hc, rfl⟩ := List.mem_map.mp hl
    exact ⟨(h c hc).ends, (h c hc).1.2⟩
  have hread := parts_intercalate hentries (by decide)
  rw [commaList, String.toList_intercalate]
  change ((([',', ' '].intercalate (cs.map String.toList)).splitOn ',').map trim |>.filter
    (· ≠ [])).map String.ofList = cs
  rw [hread, List.map_map]
  simp

/-- Such a list has no outer white space as a text. -/
theorem trim_join {cs : List String} (h : ∀ c ∈ cs, Trimmed c) :
    trim (", ".intercalate cs).toList = (", ".intercalate cs).toList := by
  rw [String.toList_intercalate]
  refine trim_intercalate _ fun l hl => ?_
  obtain ⟨c, hc, rfl⟩ := List.mem_map.mp hl
  exact (h c hc).ends

/-- Every list read so far has well-separated entries. -/
def PeerScan.Listed (s : PeerScan) : Prop :=
  (∀ key list, s.peers.get? key = some list → ∀ c ∈ list, WireGuard.Listed c) ∧
    ∀ c ∈ s.currentAllowedIPs, WireGuard.Listed c

theorem PeerScan.Listed.flush {s : PeerScan} (h : s.Listed) :
    ∀ key list, s.flush.get? key = some list → ∀ c ∈ list, WireGuard.Listed c := by
  intro key list hk
  unfold PeerScan.flush at hk
  split at hk
  · split at hk
    · exact h.1 key list hk
    · rw [Table.get?_set] at hk
      split at hk
      · cases hk
        exact h.2
      · exact h.1 key list hk
  · exact h.1 key list hk

theorem PeerScan.Listed.line {s : PeerScan} (h : s.Listed) (rawLine : String) :
    (s.line rawLine).Listed := by
  unfold PeerScan.line
  dsimp only
  split
  · exact ⟨h.flush, nofun⟩
  split
  · exact ⟨h.flush, h.2⟩
  split
  · exact h
  split
  · exact h
  split
  · split
    · exact h
    split
    · exact ⟨h.1, listed_commaList⟩
    · exact h
  · exact h

theorem listed_of_parse {lines : List String} {pubkey : String} {list : List String}
    (h : (parsePeersFromConf lines).get? pubkey = some list) : ∀ c ∈ list, Listed c := by
  have hscan : (lines.foldl PeerScan.line PeerScan.init).Listed := by
    have hinit : PeerScan.init.Listed := ⟨nofun, nofun⟩
    exact List.foldlRecOn lines _ hinit fun s hs l _ => hs.line l
  exact hscan.flush pubkey list h

end FloppyGuard.WireGuard
