import FloppyGuard.Lib.Run
import FloppyGuard.WireGuard.MetadataPatch
import FloppyGuard.WireGuard.PeerRemoval

/-! The comment above each peer of a conf that `createPeer` wrote, through removals. -/
namespace FloppyGuard.WireGuard

open Text

variable {base conf xs ys : List String} {l target : String}

/-- What `createPeer` writes of a peer. -/
structure NewPeer where
  name : Option String
  publicKey : String
  allowedIPs : List String
  trimmed : trim publicKey.toList = publicKey.toList

namespace NewPeer

def label (p : NewPeer) : String :=
  "# " ++ Patch.stripLinkNameControlChars (match p.name with
    | none | some "" => "new-peer"
    | some name => name)

/-- `peerBlock`, whose first line end closes the last line of the conf. -/
def block (p : NewPeer) : List String :=
  [p.label, "[Peer]", "PublicKey = " ++ p.publicKey,
    "AllowedIPs = " ++ ", ".intercalate p.allowedIPs, ""]

end NewPeer

/-- A conf and the peers that are left in it. -/
structure PeerConf where
  peers : List NewPeer
  conf : List String

def PeerConf.created (base : List String) (ps : List NewPeer) : PeerConf :=
  ⟨ps, ps.foldl (fun conf p => conf ++ p.block) base⟩

def PeerConf.remove (s : PeerConf) (target : String) : PeerConf :=
  ⟨s.peers.filter (·.publicKey ≠ target), removePeerFromConf s.conf target⟩

/-- The line directly above each `[Peer]`, and the key of the peer. -/
def labels : Option String → List String → List (Option String × Option String)
  | _, [] => []
  | above, l :: ls =>
    if isPeerHeader l then (above, ((ls.takeWhile (!isHeader ·)).filterMap publicKeyOf).getLast?) ::
      labels (some l) ls
    else labels (some l) ls

/-- Each peer has its own comment above it, and no other comment was written by `createPeer`. -/
structure Labelled (base : List String) (s : PeerConf) : Prop where
  own : labels none s.conf = s.peers.map fun p => (some p.label, some p.publicKey)
  only : (s.conf.filter isComment).Sublist (base.filter isComment ++ s.peers.map NewPeer.label)

/-- No peer that stays stands behind one that goes. -/
def Trailing (s : PeerConf) (target : String) : Prop :=
  ∀ p ∈ s.peers.dropWhile (·.publicKey ≠ target), p.publicKey = target

/-! The lines of a block. -/

variable {p : NewPeer} {s : RemoveScan}

/-- The lines of a block below its header. -/
def NewPeer.body (p : NewPeer) : List String :=
  ["PublicKey = " ++ p.publicKey, "AllowedIPs = " ++ ", ".intercalate p.allowedIPs, ""]

theorem block_eq (p : NewPeer) : p.block = p.label :: "[Peer]" :: p.body := rfl

theorem trim_label (p : NewPeer) : ∃ t, trim p.label.toList = '#' :: t := by
  rw [NewPeer.label, String.toList_append]
  exact trim_cons (by decide) _

theorem isComment_label (p : NewPeer) : isComment p.label = true := by
  obtain ⟨t, ht⟩ := trim_label p
  rw [isComment, ht]
  rfl

theorem isHeader_label (p : NewPeer) : isHeader p.label = false := by
  obtain ⟨t, ht⟩ := trim_label p
  rw [isHeader, ht]
  rfl

theorem isNamed_label (p : NewPeer) : isNamed target p.label = false := by
  obtain ⟨t, ht⟩ := trim_label p
  rw [isNamed, ht]
  rfl

theorem trim_allowedIPs (v : String) : ∃ t, trim ("AllowedIPs = " ++ v).toList = 'A' :: t := by
  rw [String.toList_append]
  exact trim_cons (by decide) _

theorem trim_publicKey (key : String) : ∃ t, trim ("PublicKey = " ++ key).toList = 'P' :: t := by
  rw [String.toList_append]
  exact trim_cons (by decide) _

theorem plain_body (p : NewPeer) : ∀ l ∈ p.body, isHeader l = false ∧ isComment l = false := by
  intro l hl
  simp only [NewPeer.body, List.mem_cons, List.not_mem_nil, or_false] at hl
  rcases hl with rfl | rfl | rfl
  · obtain ⟨t, ht⟩ := trim_publicKey p.publicKey
    rw [isHeader, isComment, ht]
    exact ⟨rfl, rfl⟩
  · obtain ⟨t, ht⟩ := trim_allowedIPs (", ".intercalate p.allowedIPs)
    rw [isHeader, isComment, ht]
    exact ⟨rfl, rfl⟩
  · decide

theorem isNamed_publicKey (p : NewPeer) :
    isNamed target ("PublicKey = " ++ p.publicKey) = decide (p.publicKey = target) := by
  have hkv := keyValue_line (k := "PublicKey".toList) (by decide) (by decide) (by decide)
    p.publicKey.toList
  have htext : ("PublicKey = " ++ p.publicKey).toList = "PublicKey".toList ++ " = ".toList ++
      p.publicKey.toList :=
    String.toList_append
  rw [← htext] at hkv
  obtain ⟨hstart, hval⟩ := startsWith_of_keyValue hkv
  rw [isNamed, hstart, hval, p.trimmed, Bool.true_and, decide_eq_decide]
  exact String.toList_inj

theorem any_isNamed_body (p : NewPeer) :
    p.body.any (isNamed target) = decide (p.publicKey = target) := by
  obtain ⟨t, ht⟩ := trim_allowedIPs (", ".intercalate p.allowedIPs)
  have hips : isNamed target ("AllowedIPs = " ++ ", ".intercalate p.allowedIPs) = false := by
    rw [isNamed, ht]
    rfl
  have hempty : isNamed target "" = false := rfl
  simp [NewPeer.body, isNamed_publicKey, hips, hempty]

/-! A removal goes over the blocks. -/

/-- A label is swallowed with the peer above it, when that goes. -/
theorem flush_line_label : (s.line target p.label).flush = if s.inPeer && s.skipBlock then s.flush
    else s.flush ++ [p.label] := by
  have hhead := isHeader_label p
  rw [RemoveScan.line, if_neg (by simp [isPeerHeader_eq_false hhead]), if_neg (by simp [hhead]),
    isNamed_label]
  cases hin : s.inPeer with
  | false => simp [RemoveScan.flush, hin]
  | true =>
    cases hskip : s.skipBlock with
    | false => simp [RemoveScan.flush, hin, hskip]
    | true => simp [RemoveScan.flush, hin, hskip]

theorem foldl_block : p.block.foldl (RemoveScan.line target) s =
    ⟨(s.line target p.label).flush, true, p.publicKey = target, "[Peer]" :: p.body⟩ := by
  have hheader : ∀ s : RemoveScan, s.line target "[Peer]" = ⟨s.flush, true, false, ["[Peer]"]⟩ :=
    fun s => if_pos (by decide)
  rw [block_eq, List.foldl_cons, List.foldl_cons, hheader, foldl_line_inPeer rfl fun l hl =>
    (plain_body p l hl).1,
    any_isNamed_body, Bool.false_or, List.singleton_append]

theorem flush_foldl_keep (hs : (s.inPeer && s.skipBlock) = false) {ps : List NewPeer}
    (hkeep : ∀ p ∈ ps, p.publicKey ≠ target) :
    let t := (ps.flatMap NewPeer.block).foldl (RemoveScan.line target) s
    t.flush = s.flush ++ ps.flatMap NewPeer.block ∧ (t.inPeer && t.skipBlock) = false := by
  induction ps generalizing s with
  | nil => exact ⟨(List.append_nil _).symm, hs⟩
  | cons p ps ih =>
    have hp := hkeep p List.mem_cons_self
    rw [List.flatMap_cons, List.foldl_append, foldl_block, flush_line_label, hs,
      if_neg Bool.false_ne_true]
    have hrest := ih (s := ⟨s.flush ++ [p.label], true, p.publicKey = target, "[Peer]" :: p.body⟩)
      (by simp [hp])
      fun q hq => hkeep q (List.mem_cons_of_mem _ hq)
    refine ⟨?_, hrest.2⟩
    rw [hrest.1]
    simp [RemoveScan.flush, hp, NewPeer.block, NewPeer.body]

/-- Each block that goes takes the comments and the blank lines above it along. -/
theorem flush_foldl_gone (hs : (s.inPeer && s.skipBlock) = false) {ps : List NewPeer}
    (hgone : ∀ p ∈ ps, p.publicKey = target) :
    ((ps.flatMap NewPeer.block).foldl (RemoveScan.line target) s).flush = dropLead^[ps.length]
      s.flush := by
  have hskipped : ∀ (ps : List NewPeer) (s : RemoveScan), (s.inPeer && s.skipBlock) = true →
      (∀ p ∈ ps, p.publicKey = target) →
      ((ps.flatMap NewPeer.block).foldl (RemoveScan.line target) s).flush = dropLead^[ps.length]
        s.flush := by
    intro ps
    induction ps with
    | nil => exact fun _ _ _ => rfl
    | cons p ps ih =>
      intro s hs hgone
      have hp := hgone p List.mem_cons_self
      rw [List.flatMap_cons, List.foldl_append, foldl_block, flush_line_label, if_pos hs,
        ih _ (by simp [hp]) fun q hq => hgone q (List.mem_cons_of_mem _ hq), List.length_cons,
          Function.iterate_succ_apply]
      simp [RemoveScan.flush, hp]
  cases ps with
  | nil => rfl
  | cons p ps =>
    have hp := hgone p List.mem_cons_self
    have hlabel : dropLead (s.flush ++ [p.label]) = dropLead s.flush := by
      rw [dropLead, List.rdropWhile_concat_pos _ _ _ (isComment_label p)]
      rfl
    rw [List.flatMap_cons, List.foldl_append, foldl_block, flush_line_label, hs,
      if_neg Bool.false_ne_true,
      hskipped ps _ (by simp [hp]) fun q hq => hgone q (List.mem_cons_of_mem _ hq),
        List.length_cons,
      Function.iterate_succ_apply, decide_eq_true hp]
    exact congrArg _ hlabel

theorem flush_blocks {front : List String} (hfront : ∀ l ∈ front, isPeerHeader l = false)
    {keep gone : List NewPeer}
    (hkeep : ∀ p ∈ keep, p.publicKey ≠ target) (hgone : ∀ p ∈ gone, p.publicKey = target) :
    ((front ++ (keep ++ gone).flatMap NewPeer.block).foldl (RemoveScan.line target) .init).flush =
      dropLead^[gone.length] (front ++ keep.flatMap NewPeer.block) := by
  obtain ⟨t, ht⟩ : ∃ t, t = front.foldl (RemoveScan.line target) .init := ⟨_, rfl⟩
  have hstart : t.flush = front ∧ t.inPeer = false := ht ▸ flush_foldl_line rfl hfront
  obtain ⟨hflush, hskip⟩ := flush_foldl_keep (s := t) (by rw [hstart.2]; rfl) hkeep
  rw [List.flatMap_append, List.foldl_append, List.foldl_append, ← ht, flush_foldl_gone hskip hgone,
    hflush, hstart.1]

/-! What is left of a conf. -/

theorem iterate_dropLead_isPrefix (n : ℕ) (xs : List String) : dropLead^[n] xs <+: xs := by
  induction n generalizing xs with
  | zero => exact List.prefix_rfl
  | succ n ih =>
    exact (ih _).trans ((List.rdropWhile_prefix _ _).trans (List.rdropWhile_prefix _ _))

/-- Above a line that counts nothing but its empty line goes. -/
theorem trimmed_dropLead (n : ℕ) (hl : isCode l = true) :
    (dropLead^[n] (xs ++ [l, ""])).rdropWhile isBlank = xs ++ [l] := by
  have hcode : isBlank l = false ∧ isComment l = false := by simpa [isCode] using hl
  have hblank : (xs ++ [l]).rdropWhile isBlank = xs ++ [l] :=
    List.rdropWhile_concat_neg _ _ _ (by simp [hcode.1])
  have hcomment : (xs ++ [l]).rdropWhile isComment = xs ++ [l] :=
    List.rdropWhile_concat_neg _ _ _ (by simp [hcode.2])
  have hfix : dropLead (xs ++ [l]) = xs ++ [l] := by rw [dropLead, hcomment, hblank]
  have hsplit : xs ++ [l, ""] = (xs ++ [l]) ++ [""] := by simp
  have hempty : (xs ++ [l, ""]).rdropWhile isBlank = xs ++ [l] := by
    rw [hsplit, List.rdropWhile_concat_pos _ _ _ (by decide), hblank]
  cases n with
  | zero => exact hempty
  | succ n =>
    have hfirst : dropLead (xs ++ [l, ""]) = xs ++ [l] := by
      rw [dropLead, hsplit, List.rdropWhile_concat_neg _ _ _ (by decide), ← hsplit, hempty]
    rw [Function.iterate_succ_apply, hfirst, Function.iterate_fixed hfix, hblank]

/-- A text without peers, and the blocks of the peers. -/
def Built (base : List String) (s : PeerConf) : Prop :=
  ∃ front, s.conf = front ++ s.peers.flatMap NewPeer.block ∧ (∀ l ∈ front, isPeerHeader l = false) ∧
    (front.filter isComment).Sublist (base.filter isComment)

theorem built_created (hbase : ∀ l ∈ base, isPeerHeader l = false) (ps : List NewPeer) :
    Built base (.created base ps) := by
  refine ⟨base, ?_, hbase, List.Sublist.refl _⟩
  have hfold : ∀ (ps : List NewPeer) (conf : List String),
      ps.foldl (fun conf p => conf ++ p.block) conf = conf ++ ps.flatMap NewPeer.block := by
    intro ps
    induction ps with
    | nil => simp
    | cons p ps ih =>
      intro conf
      rw [List.foldl_cons, ih, List.append_assoc, List.flatMap_cons]
  exact hfold ps base

theorem Built.remove {s : PeerConf} (h : Built base s) (hlast : Trailing s target) :
    Built base (s.remove target) := by
  obtain ⟨front, hconf, hfront, hcomments⟩ := h
  have hsplit :=
    List.takeWhile_append_dropWhile (p := fun p : NewPeer => decide (p.publicKey ≠ target)) (l :=
      s.peers)
  generalize hkeep : s.peers.takeWhile _ = keep at hsplit
  have hmem : ∀ p ∈ keep, p.publicKey ≠ target := fun p hp => by
    rw [← hkeep] at hp
    simpa using List.mem_takeWhile_imp hp
  have hgone : (s.peers.dropWhile fun p => decide (p.publicKey ≠ target)).filter
      (·.publicKey ≠ target) = [] :=
    List.filter_eq_nil_iff.mpr fun p hp => by simp [hlast p hp]
  have hpeers : (s.remove target).peers = keep := by
    have hfilter : s.peers.filter (·.publicKey ≠ target) = keep := by
      conv_lhs => rw [← hsplit]
      rw [List.filter_append, hgone, List.append_nil]
      exact List.filter_eq_self.mpr fun p hp => decide_eq_true (hmem p hp)
    exact hfilter
  have hflush := flush_blocks hfront hmem hlast
  rw [hsplit, ← hconf] at hflush
  generalize (s.peers.dropWhile fun p => decide (p.publicKey ≠ target)).length = n at hflush
  obtain ⟨out, hout⟩ : ∃ out, out = (dropLead^[n] (front ++ keep.flatMap NewPeer.block)).rdropWhile
      isBlank := ⟨_, rfl⟩
  have hleft : (s.remove target).conf = (if out = [] then [""] else out) ++ [""] := by
    rw [PeerConf.remove, removePeerFromConf, hflush, hout]
  rw [Built, hpeers, hleft]
  cases keep using List.reverseRecOn with
  | nil =>
    have hkept : out <+: front := by
      rw [hout]
      refine (List.rdropWhile_prefix _ _).trans ((iterate_dropLead_isPrefix _ _).trans ?_)
      rw [List.flatMap_nil, List.append_nil]
    refine ⟨_, (List.append_nil _).symm, fun l hl => ?_, ?_⟩
    · rcases List.mem_append.mp hl with hl | hl
      · split at hl
        · rw [List.mem_singleton.mp hl]
          decide
        · exact hfront l (hkept.subset hl)
      · rw [List.mem_singleton.mp hl]
        decide
    · refine List.Sublist.trans ?_ hcomments
      have hempty : isComment "" = false := rfl
      split
      · simp [hempty]
      · simpa [hempty] using hkept.sublist.filter isComment
  | append_singleton keep p =>
    have hips : isCode ("AllowedIPs = " ++ ", ".intercalate p.allowedIPs) = true := by
      obtain ⟨t, ht⟩ := trim_allowedIPs (", ".intercalate p.allowedIPs)
      exact isCode_of_head (by rw [ht]; rfl) (by decide)
    have hlines : front ++ (keep ++ [p]).flatMap NewPeer.block =
        (front ++ keep.flatMap NewPeer.block ++
          [p.label, "[Peer]", "PublicKey = " ++ p.publicKey]) ++
          ["AllowedIPs = " ++ ", ".intercalate p.allowedIPs, ""] := by
      simp [NewPeer.block]
    refine ⟨front, ?_, hfront, hcomments⟩
    rw [hlines, trimmed_dropLead n hips] at hout
    rw [hlines, hout, if_neg (by simp)]
    simp

/-! The labels of what is left. -/

theorem labels_append {above : Option String} (h : ∀ l ∈ xs, isPeerHeader l = false) :
    labels above (xs ++ ys) = labels (xs.getLast?.or above) ys := by
  induction xs generalizing above with
  | nil => rfl
  | cons l xs ih =>
    rw [List.cons_append, labels, if_neg (by simp [h l List.mem_cons_self]), ih fun m hm =>
      h m (List.mem_cons_of_mem _ hm),
      List.getLast?_cons]
    cases xs.getLast? <;> rfl

theorem labels_blocks (ps : List NewPeer) (above : Option String) :
    labels above (ps.flatMap NewPeer.block) = ps.map fun p => (some p.label, some p.publicKey) := by
  induction ps generalizing above with
  | nil => rfl
  | cons p ps ih =>
    have hbody : ∀ l ∈ p.body, (!isHeader l) = true := fun l hl => by
      rw [(plain_body p l hl).1]; rfl
    -- behind the key come the networks, the empty line and the label of the next peer
    have hnone : ∀ l ∈ ["AllowedIPs = " ++ ", ".intercalate p.allowedIPs, ""] ++
        (ps.flatMap NewPeer.block).takeWhile (!isHeader ·), publicKeyOf l = none := by
      intro l hl
      apply publicKeyOf_eq_none
      rcases List.mem_append.mp hl with hl | hl
      · rcases List.mem_cons.mp hl with rfl | hl
        · obtain ⟨t, ht⟩ := trim_allowedIPs (", ".intercalate p.allowedIPs)
          rw [ht]
          rfl
        · rw [List.mem_singleton.mp hl]
          rfl
      · cases ps with
        | nil => simp at hl
        | cons q ps =>
          have hheader : isHeader "[Peer]" = true := by decide
          rw [List.flatMap_cons, block_eq, List.cons_append, List.cons_append, List.takeWhile_cons,
            if_pos (by simp [isHeader_label]), List.takeWhile_cons, if_neg (by simp [hheader])]
              at hl
          obtain ⟨t, ht⟩ := trim_label q
          rw [List.mem_singleton.mp hl, ht]
          rfl
    have hkey : (((p.body ++ ps.flatMap NewPeer.block).takeWhile (!isHeader ·)).filterMap
      publicKeyOf).getLast? =
        some p.publicKey := by
      have hbody' : ∀ ys, p.body ++ ys = ("PublicKey = " ++ p.publicKey) ::
        (["AllowedIPs = " ++ ", ".intercalate p.allowedIPs, ""] ++ ys) := fun _ => rfl
      rw [List.takeWhile_append_of_pos hbody, hbody', List.filterMap_cons, publicKeyOf_line,
        List.filterMap_eq_nil_iff.mpr hnone, p.trimmed, String.ofList_toList]
      rfl
    have hnext : labels (some "[Peer]") (p.body ++ ps.flatMap NewPeer.block) = ps.map fun p =>
        (some p.label, some p.publicKey) := by
      rw [labels_append fun l hl => isPeerHeader_eq_false (plain_body p l hl).1]
      exact ih _
    rw [List.flatMap_cons, List.map_cons, block_eq, List.cons_append, List.cons_append, labels,
      if_neg (by simp [isPeerHeader_eq_false (isHeader_label p)]), labels, if_pos (by decide), hkey,
        hnext]

theorem Built.labelled {s : PeerConf} (h : Built base s) : Labelled base s := by
  obtain ⟨front, hconf, hfront, hcomments⟩ := h
  constructor
  · rw [hconf, labels_append hfront, labels_blocks]
  · have hblock : ∀ p : NewPeer, p.block.filter isComment = [p.label] := by
      intro p
      have hbody : p.body.filter isComment = [] := List.filter_eq_nil_iff.mpr fun l hl => by
        simp [(plain_body p l hl).2]
      have hheader : isComment "[Peer]" = false := by decide
      rw [block_eq, List.filter_cons_of_pos (isComment_label p),
        List.filter_cons_of_neg (by simp [hheader]), hbody]
    rw [hconf, List.filter_append, List.filter_flatMap]
    simp only [hblock]
    rw [← List.map_eq_flatMap]
    exact hcomments.append (List.Sublist.refl _)

/-- Peers that are removed from the last one on take their own labels along, and no other. -/
theorem labels_kept {ps : List NewPeer} {targets : List String} {s : PeerConf}
    (hbase : ∀ l ∈ base, isPeerHeader l = false)
    (h : Run (Guarded (fun s target t => t = s.remove target) Trailing) (.created base ps) targets
      s) : Labelled base s := by
  refine Built.labelled (h.guarded_invariant (I := Built base) ?_ (built_created hbase ps))
  rintro s target t rfl hlast hs
  exact hs.remove hlast

/-! Two peers of a hub, removed one after the other. -/

instance (s : PeerConf) (target : String) : Decidable (Trailing s target) :=
  inferInstanceAs (Decidable (∀ p ∈ s.peers.dropWhile (·.publicKey ≠ target), p.publicKey = target))

def bareConf : List String := ["[Interface]", "Address = 10.10.0.1/24", ""]

def alice : NewPeer := ⟨some "alice", "kA=", ["10.10.0.2/32"], by decide⟩

def bob : NewPeer := ⟨none, "kB=", ["10.10.0.3/32", "192.168.5.0/24"], by decide⟩

theorem labels_kept_sample :
    Labelled bareConf (((PeerConf.created bareConf [alice, bob]).remove "kB=").remove "kA=") := by
  have hbase : ∀ l ∈ bareConf, isPeerHeader l = false := by decide
  have hrun : Run (Guarded (fun s target t => t = s.remove target) Trailing)
    (.created bareConf [alice, bob]) ["kB=", "kA="]
      (((PeerConf.created bareConf [alice, bob]).remove "kB=").remove "kA=") :=
    .cons ⟨rfl, by decide +kernel⟩ (.cons ⟨rfl, by decide +kernel⟩ (.nil _))
  exact labels_kept hbase hrun

/-- The first of two peers takes the label of the second along. -/
theorem removal_takes_next_label :
    labels none ((PeerConf.created bareConf [alice, bob]).remove "kA=").conf =
      [(some "Address = 10.10.0.1/24", some "kB=")] ∧
      ¬ Labelled bareConf ((PeerConf.created bareConf [alice, bob]).remove "kA=") := by
  have hlabels : labels none ((PeerConf.created bareConf [alice, bob]).remove "kA=").conf =
      [(some "Address = 10.10.0.1/24", some "kB=")] := by decide +kernel
  refine ⟨hlabels, fun h => ?_⟩
  have hown : labels none ((PeerConf.created bareConf [alice, bob]).remove "kA=").conf =
      [(some "# new-peer", some "kB=")] :=
    h.own.trans (by decide +kernel)
  rw [hlabels] at hown
  revert hown
  decide

end FloppyGuard.WireGuard
