import FloppyGuard.Ingress.Sanitize
import FloppyGuard.Ingress.Sessions
import Mathlib.Algebra.Order.BigOperators.Group.List

/-! How many lines a filter has, and what a rule request does to them. -/
namespace FloppyGuard.Ingress

open Checked DirectLink

variable {w : World} {s t : State} {k n now : ℕ} {mode : IngressMode} {a b : Agent} {req : Request}
  {inp inp' : FilterInput} {rules rules' : List Rule} {r : Rule} {links links' : List Link}
    {src : Cidr}

/-- The lines the builder counts, when every rule is usable. -/
def filterLines (inp : FilterInput) (rules : List Rule) : ℕ :=
  totalLineCount rules inp.ifaces.length + totalAliasLines inp rules

/-! A filter within the caps builds. -/

theorem isWgIface_ifaceOf (name : String) : isWgIface (ifaceOf name) = true := by
  unfold ifaceOf
  split
  · assumption
  · decide

theorem isDirectIface_directIface {id : ℕ} (h : id ≤ maxDirectLinkId) :
    isDirectIface (directIface id) = true := by
  have hnum : Text.number 4 (Nat.toDigits 10 id) = some id :=
    Text.number_toDigits (by omega) (Nat.lt_succ_of_le h)
  have htext : (directIface id).toList = 'f' :: 'g' :: 'd' :: Nat.toDigits 10 id := by
    simp [directIface, decimal]
  simp [isDirectIface, htext, hnum]

/-- The caps hold of what an agent stores and of what the builder makes of it. -/
structure WithinCaps (inp : FilterInput) (rules : List Rule) : Prop where
  stored : ∀ r ∈ rules, Stored r
  few : rules.length ≤ maxRulesPerAgent
  fits : filterLines inp rules ≤ maxLinesTotal

theorem usable_active (h : ∀ r ∈ rules, Stored r) (hid : ∀ r ∈ rules, 1 ≤ r.id) :
    ∀ r ∈ activeRules rules, ∃ sources destinations, Usable r sources destinations := by
  intro r hr
  have hmem := (List.mem_filter.mp (activeRules_perm.mem_iff.mp hr)).1
  exact usable_of_stored (h r hmem) (hid r hmem)

theorem buildable_of_withinCaps (h : WithinCaps inp rules) (hid : ∀ r ∈ rules, 1 ≤ r.id)
    (hneed : ¬ (inp.ingressMode = .open_ ∧ activeRules rules = []))
    (hwg : isWgIface inp.iface = true)
    (hdirect : ∀ d ∈ inp.directIfaces, isDirectIface d = true) : Buildable inp rules where
  needed := hneed
  wg := hwg
  direct := hdirect
  few := by
    rw [activeRules_perm.length_eq]
    exact Nat.le_trans (List.length_filter_le _ _) h.few
  usable := usable_active h.stored hid
  fits := by
    rw [length_allRuleLines (usable_active h.stored hid)]
    exact h.fits

/-- Within the caps no size error is thrown. -/
theorem no_size_error (h : WithinCaps inp rules) (hid : ∀ r ∈ rules, 1 ≤ r.id) :
    buildIngressRestore inp rules ≠ .error .tooManyRules ∧
      buildIngressRestore inp rules ≠ .error .tooManyLines := by
  by_cases hneed : inp.ingressMode = .open_ ∧ activeRules rules = []
  · have hnone : buildIngressRestore inp rules = .ok none := by
      unfold buildIngressRestore
      exact if_pos hneed
    simp [hnone]
  by_cases hwg : isWgIface inp.iface = true
  · cases hd : inp.directIfaces.find? (!isDirectIface ·) with
    | none =>
      have hdirect : ∀ d ∈ inp.directIfaces, isDirectIface d = true := by
        simpa using List.find?_eq_none.mp hd
      have hb := buildIngressRestore_of_buildable (buildable_of_withinCaps h hid hneed hwg hdirect)
      simp [hb]
    | some d =>
      have herr : buildIngressRestore inp rules = .error (.invalidDirectIface d) := by
        simp [buildIngressRestore, hneed, hwg, hd]
      simp [herr]
  · have herr : buildIngressRestore inp rules = .error (.invalidIface inp.iface) := by
      simp [buildIngressRestore, hneed, hwg]
    simp [herr]

theorem pushLines_overflow {new acc : List Line} (hacc : acc.length ≤ maxLinesTotal)
    (h : maxLinesTotal < acc.length + new.length) :
    pushLines (new.map .ok) acc = .error .tooManyLines := by
  induction new generalizing acc with
  | nil => simp only [List.length_nil] at h; omega
  | cons l new ih =>
    rw [List.map_cons, pushLines]
    split
    · rfl
    · rename_i hlen
      exact ih (by simpa using hlen)
        (by simp only [List.length_append, List.length_cons, List.length_nil] at h ⊢; omega)

/-- Beyond the cap a restricted agent gets a size error instead of a filter. -/
theorem tooManyLines (hstored : ∀ r ∈ rules, Stored r) (hid : ∀ r ∈ rules, 1 ≤ r.id)
    (hfew : rules.length ≤ maxRulesPerAgent) (hmode : inp.ingressMode = .restricted)
    (hwg : isWgIface inp.iface = true) (hdirect : ∀ d ∈ inp.directIfaces, isDirectIface d = true)
    (hlines : maxLinesTotal < filterLines inp rules) :
    buildIngressRestore inp rules = .error .tooManyLines := by
  have hneed : ¬ (inp.ingressMode = .open_ ∧ activeRules rules = []) :=
    fun h => nomatch hmode.symm.trans h.1
  have hfind : inp.directIfaces.find? (!isDirectIface ·) = none := by
    simpa using hdirect
  have hactive : (activeRules rules).length ≤ maxRulesPerAgent := by
    rw [activeRules_perm.length_eq]
    exact Nat.le_trans (List.length_filter_le _ _) hfew
  have hpush : pushLines ((activeRules rules).flatMap (ruleItems inp)) [] =
      .error .tooManyLines := by
    rw [flatMap_ruleItems (usable_active hstored hid)]
    refine pushLines_overflow (Nat.zero_le _) ?_
    have hlen : (allRuleLines inp rules).length = _ :=
      length_allRuleLines (usable_active hstored hid)
    rw [allRuleLines] at hlen
    rw [hlen, List.length_nil, Nat.zero_add]
    exact hlines
  simp only [buildIngressRestore, if_neg hneed, hwg, Bool.not_true, Bool.false_eq_true, if_false,
    hfind,
    if_neg (Nat.not_lt.mpr hactive), hpush]

theorem valid_directIfaces (h : ∀ l ∈ links, l.serves k = true → l.id ≤ maxDirectLinkId) :
    ∀ d ∈ (filterInput w links k mode).directIfaces, isDirectIface d = true := by
  intro d hd
  obtain ⟨l, hl, rfl⟩ := List.mem_map.mp hd
  obtain ⟨hmem, hserves⟩ := List.mem_filter.mp ((List.perm_insertionSort _ _).mem_iff.mp hl)
  exact isDirectIface_directIface (h l hmem hserves)

/-! How the number of lines depends on the links. -/

theorem servingLinks_perm : (servingLinks links k).Perm (links.filter (·.serves k)) :=
  List.perm_insertionSort _ _

theorem length_ifaces_filterInput :
    (filterInput w links k mode).ifaces.length = ifaceCountOf links k := by
  simp [filterInput, FilterInput.ifaces, ifaceCountOf]
  omega

theorem ifaceCountOf_eq : ifaceCountOf links k = 1 + (links.filter (·.serves k)).length := by
  rw [ifaceCountOf, ifacesFor, List.length_map, servingLinks_perm.length_eq]

/-- A source takes the partner's own traffic in through the alias. -/
def aliasCovers (src : Cidr) (al : DirectAlias) : Bool :=
  cidrContains src.render (al.hub ++ "/32") && !cidrContains src.render (hostCidr al.direct).render

theorem aliasCount_filterInput : aliasCount (filterInput w links k mode) src =
    (((links.filter (·.serves k)).filterMap (aliasOf w.hubAddress k)).filter
      (aliasCovers src)).length := by
  have happlies : ∀ al ∈ ingressAliasesFor w.hubAddress links k,
      aliasApplies (filterInput w links k mode) src al = aliasCovers src al := by
    intro al hal
    obtain ⟨l, hl, hal⟩ := List.mem_filterMap.mp hal
    obtain ⟨hub, -, rfl⟩ := Option.map_eq_some_iff.mp hal
    have hiface : directIface l.id ∈ ifacesFor links k := List.mem_map_of_mem hl
    simp [aliasApplies, aliasCovers, filterInput, hiface]
  have haliases : (filterInput w links k mode).directAliases = ingressAliasesFor w.hubAddress links
      k := rfl
  rw [aliasCount, haliases, List.filter_congr happlies, ingressAliasesFor]
  exact ((servingLinks_perm.filterMap _).filter _).length_eq

/-- Fewer serving links, fewer alias lines. -/
theorem aliasCount_mono {mode' : IngressMode}
    (h : (links'.filter (·.serves k)).Sublist (links.filter (·.serves k))) :
    aliasCount (filterInput w links' k mode') src ≤ aliasCount (filterInput w links k mode)
      src := by
  rw [aliasCount_filterInput, aliasCount_filterInput]
  exact ((h.filterMap _).filter _).length_le

theorem aliasLines_mono (h : ∀ src, aliasCount inp' src ≤ aliasCount inp src) :
    aliasLines inp' r ≤ aliasLines inp r := by
  refine Nat.mul_le_mul (Nat.mul_le_mul ?_ (Nat.le_refl _)) (Nat.le_refl _)
  exact List.sum_le_sum fun src _ => h src

theorem totalLineCount_mul : totalLineCount rules n = totalLineCount rules 1 * max 1 n := by
  simp [totalLineCount]

theorem totalLineCount_mono {m : ℕ} (h : m ≤ n) :
    totalLineCount rules m ≤ totalLineCount rules n := by
  rw [totalLineCount_mul, totalLineCount_mul (n := n)]
  exact Nat.mul_le_mul (Nat.le_refl _) (by omega)

theorem filterLines_links_mono {mode' : IngressMode}
    (h : (links'.filter (·.serves k)).Sublist (links.filter (·.serves k))) :
    filterLines (filterInput w links' k mode') rules ≤ filterLines (filterInput w links k mode)
      rules := by
  refine Nat.add_le_add ?_ (List.sum_le_sum fun r _ => aliasLines_mono fun _ => aliasCount_mono h)
  rw [length_ifaces_filterInput, length_ifaces_filterInput, ifaceCountOf_eq, ifaceCountOf_eq]
  exact totalLineCount_mono (Nat.add_le_add_left h.length_le 1)

/-! What a rule request does to the lines. -/

/-- What one rule adds. -/
def weight (inp : FilterInput) (r : Rule) : ℕ :=
  if r.enabled then ruleLineCount r * max 1 inp.ifaces.length + aliasLines inp r else 0

theorem filterLines_eq_sum : filterLines inp rules = (rules.map (weight inp)).sum := by
  induction rules with
  | nil => simp [filterLines, totalLineCount, totalAliasLines]
  | cons r rules ih =>
    rw [List.map_cons, List.sum_cons, ← ih]
    cases hen : r.enabled with
    | true =>
      simp only [filterLines, totalLineCount, totalAliasLines, weight, List.filter_cons, hen,
        if_true,
        List.map_cons, List.sum_cons]
      ring
    | false => simp [filterLines, totalLineCount, totalAliasLines, weight, hen]

/-- A rule rewritten to count no more. -/
theorem weight_mono {r r' : Rule} (hen : r'.enabled = true → r.enabled = true)
    (hs : r'.sources = r.sources)
    (hd : r'.destinations = r.destinations) (hp : r'.ports = r.ports) :
    weight inp r' ≤ weight inp r := by
  unfold weight
  split
  · rename_i h
    rw [if_pos (hen h)]
    simp [ruleLineCount, aliasLines, hs, hd, hp]
  · exact Nat.zero_le _

theorem filterLines_map {change : Rule → Rule}
    (h : ∀ r ∈ rules, weight inp (change r) ≤ weight inp r) :
    filterLines inp (rules.map change) ≤ filterLines inp rules := by
  rw [filterLines_eq_sum, filterLines_eq_sum, List.map_map]
  exact List.sum_le_sum h

theorem filterLines_filter {keep : Rule → Bool} :
    filterLines inp (rules.filter keep) ≤ filterLines inp rules := by
  rw [filterLines_eq_sum, filterLines_eq_sum]
  exact (List.filter_sublist.map _).sum_le_sum fun _ _ => Nat.zero_le _

/-- A request that can enlarge the ruleset. -/
def Request.canGrow : Request → Bool
  | .create _ | .createBulk _ => true
  | .update _ data =>
    match sanitizeIngressRule data true with
    | .ok clean => updateCanGrow clean
    | .error _ => false
  | .delete _ | .disableBulk _ _ | .setMode _ => false

theorem serve_shrinks (h : serve n now a req = .ok b) (hg : req.canGrow = false) :
    filterLines inp b.rules ≤ filterLines inp a.rules := by
  cases req with
  | create data => cases hg
  | update ruleId data =>
    obtain ⟨⟨r, b⟩, hop, rfl⟩ := map_eq_ok.mp h
    obtain ⟨clean, existing, hclean, -, -, -, rfl⟩ := update_ok hop
    simp only [Request.canGrow, hclean, updateCanGrow, Bool.or_eq_false_iff,
      Option.isSome_eq_false_iff,
      Option.isNone_iff_eq_none, beq_eq_false_iff_ne] at hg
    obtain ⟨⟨⟨hs, hd⟩, hp⟩, hen⟩ := hg
    refine filterLines_map fun r _ => ?_
    split
    · refine weight_mono (fun hr => ?_) (by simp [updatedRow, RulePatch.merge, hs])
        (by simp [updatedRow, RulePatch.merge, hd]) (by simp [updatedRow, RulePatch.merge, hp])
      cases hc : clean.enabled with
      | none => simpa [updatedRow, RulePatch.merge, hc] using hr
      | some e =>
        simp only [updatedRow, RulePatch.merge, hc, Option.getD_some] at hr
        exact absurd (hr ▸ hc) hen
    · exact Nat.le_refl _
  | delete ruleId =>
    obtain ⟨-, rfl⟩ := delete_ok h
    exact filterLines_filter
  | createBulk list => cases hg
  | disableBulk ids allowed =>
    obtain ⟨⟨ruleIds, b⟩, hop, rfl⟩ := map_eq_ok.mp h
    obtain ⟨-, -, rfl⟩ := disableBulk_ok hop
    refine filterLines_map fun r _ => ?_
    split
    · exact weight_mono nofun rfl rfl rfl
    · exact Nat.le_refl _
  | setMode mode =>
    obtain ⟨m, -, -, -, rfl⟩ := setMode_ok h
    exact Nat.le_refl _

theorem serve_stored (h : serve n now a req = .ok b) (hs : ∀ r ∈ a.rules, Stored r) :
    ∀ r ∈ b.rules, Stored r := by
  intro q hq
  cases req with
  | create data =>
    obtain ⟨⟨r, b⟩, hop, rfl⟩ := map_eq_ok.mp h
    obtain ⟨clean, hclean, -, -, rfl⟩ := create_ok hop
    rcases Rows.mem_insert.mp hq with hq | rfl
    · exact hs q hq
    · exact stored_row _ _ hclean
  | update ruleId data =>
    obtain ⟨⟨r, b⟩, hop, rfl⟩ := map_eq_ok.mp h
    obtain ⟨clean, existing, hclean, -, -, -, rfl⟩ := update_ok hop
    obtain ⟨p, hp, rfl⟩ := List.mem_map.mp hq
    split
    · obtain ⟨hps, hpn, hpd, hpp⟩ := (hs p hp).merge (sanitizeIngressRule_clean hclean)
      exact ⟨hps, hpn, hpd, hpp⟩
    · exact hs p hp
  | delete ruleId =>
    obtain ⟨-, rfl⟩ := delete_ok h
    exact hs q (List.mem_filter.mp hq).1
  | createBulk list =>
    obtain ⟨⟨reply, b⟩, hop, rfl⟩ := map_eq_ok.mp h
    obtain ⟨cleans, fresh, reIds, hlist, rfl, rfl, -, -, rfl⟩ := createBulk_ok hop
    obtain ⟨p, hp, rfl⟩ := List.mem_map.mp hq
    have hstored : Stored p := by
      rcases mem_insertAll hp with hp | ⟨clean, hclean, id, rfl⟩
      · exact hs p hp
      · obtain ⟨e, he, rfl⟩ := List.mem_map.mp hclean
        obtain ⟨d, hd⟩ := sanitizeBulkList_ok hlist e.2 (mem_bulkDedupe he)
        exact stored_row _ _ hd
    split
    · exact ⟨hstored.sources, hstored.nonempty, hstored.destinations, hstored.ports⟩
    · exact hstored
  | disableBulk ids allowed =>
    obtain ⟨⟨ruleIds, b⟩, hop, rfl⟩ := map_eq_ok.mp h
    obtain ⟨-, -, rfl⟩ := disableBulk_ok hop
    obtain ⟨p, hp, rfl⟩ := List.mem_map.mp hq
    split
    · exact ⟨(hs p hp).sources, (hs p hp).nonempty, (hs p hp).destinations, (hs p hp).ports⟩
    · exact hs p hp
  | setMode mode =>
    obtain ⟨m, -, -, -, rfl⟩ := setMode_ok h
    exact hs q hq

/-- Bulk insertion appends one row per entry, all with new ids. -/
theorem rows_insertAll (now : ℕ) (t : Table) (fresh : List RulePatch) : ∃ news : List Rule,
    (insertAll fresh now t).rows = t.rows ++ news ∧ news.length = fresh.length ∧
      (∀ r ∈ news, t.nextId ≤ r.id) ∧
      ∀ n, totalLineCount news n = totalLineCount (fresh.map (·.row 0 now)) n := by
  induction fresh generalizing t with
  | nil => exact ⟨[], by simp [insertAll], rfl, nofun, fun _ => rfl⟩
  | cons clean fresh ih =>
    obtain ⟨news, hrows, hlen, hids, htotal⟩ := ih (insertRule clean now t)
    refine ⟨clean.row t.nextId now :: news, ?_, by simp [hlen], ?_, fun n => ?_⟩
    · rw [insertAll, List.foldl_cons]
      exact hrows.trans (by simp [insertRule, Rows.insert])
    · intro r hr
      rcases List.mem_cons.mp hr with rfl | hr
      · exact Nat.le_refl _
      · exact Nat.le_trans (Nat.le_succ _) (hids r hr)
    · have hadd (r : Rule) (rules : List Rule) :
          totalLineCount (r :: rules) n = totalLineCount [r] n + totalLineCount rules n := by
        cases hen : r.enabled <;> simp [totalLineCount, hen, Nat.add_mul]
      have hrow : totalLineCount [clean.row t.nextId now] n = totalLineCount [clean.row 0 now]
          n := by
        simp only [totalLineCount, List.filter_cons, RulePatch.row]
        split <;> rfl
      rw [hadd, htotal, List.map_cons, hadd (clean.row 0 now), hrow]

/-- A bulk request switches on existing rules only. -/
theorem mem_reenable {existing : List Rule} {list : List RulePatch} {e : ℕ × ℕ}
    (h : e ∈ (bulkDedupe existing list).reenable) : ∃ r ∈ existing, r.id = e.2 := by
  have hfold (byKey : List (Targets × ℕ)) (es : List (RulePatch × ℕ)) (s : Dedupe)
      (h : e ∈ (es.foldl (Dedupe.entry byKey) s).reenable) : e ∈ s.reenable ∨ ∃ k,
        (k, e.2) ∈ byKey := by
    induction es generalizing s with
    | nil => exact Or.inl h
    | cons x es ih =>
      rcases ih _ h with h | h
      · unfold Dedupe.entry at h
        dsimp only at h
        split at h
        · exact Or.inl h
        split at h
        · rename_i ruleId hget
          rcases List.mem_append.mp h with h | h
          · exact Or.inl h
          · obtain rfl := List.mem_singleton.mp h
            obtain ⟨kv, hkv, hid⟩ := Option.map_eq_some_iff.mp hget
            exact Or.inr ⟨kv.1, hid ▸ List.mem_of_find?_eq_some hkv⟩
        · exact Or.inl h
      · exact Or.inr h
  rcases hfold _ _ _ h with h | ⟨k, h⟩
  · exact absurd h List.not_mem_nil
  · obtain ⟨r, hr, he⟩ := List.mem_map.mp h
    exact ⟨r, (List.mem_filter.mp hr).1, (Prod.mk.inj he).2⟩

theorem totalLineCount_append :
    totalLineCount (rules ++ rules') n = totalLineCount rules n + totalLineCount rules' n := by
  simp [totalLineCount, Nat.add_mul]

/-- Rules that agree in what is counted have the same estimate. -/
theorem totalLineCount_map_congr {f g : Rule → Rule}
    (hen : ∀ r ∈ rules, (f r).enabled = (g r).enabled)
    (hcount : ∀ r ∈ rules, ruleLineCount (f r) = ruleLineCount (g r)) :
    totalLineCount (rules.map f) n = totalLineCount (rules.map g) n := by
  have hsum : (((rules.map f).filter (·.enabled)).map ruleLineCount) =
      ((rules.map g).filter (·.enabled)).map ruleLineCount := by
    rw [List.filter_map, List.filter_map, List.map_map, List.map_map]
    have hfilter : rules.filter ((·.enabled) ∘ f) = rules.filter ((·.enabled) ∘ g) :=
      List.filter_congr fun r hr => hen r hr
    rw [hfilter]
    exact List.map_congr_left fun r hr => hcount r (List.mem_filter.mp hr).1
  simp only [totalLineCount, hsum]

/-- An accepted request that can enlarge the ruleset has passed the total check for what it stores.
-/
theorem serve_estimate (h : serve n now a req = .ok b) (hg : req.canGrow = true) :
    totalLineCount b.rules n ≤ maxLinesTotal := by
  cases req with
  | create data =>
    obtain ⟨⟨r, b⟩, hop, rfl⟩ := map_eq_ok.mp h
    obtain ⟨clean, -, -, htotal, rfl⟩ := create_ok hop
    exact htotal
  | update ruleId data =>
    obtain ⟨⟨r, b⟩, hop, rfl⟩ := map_eq_ok.mp h
    obtain ⟨clean, existing, hclean, hfind, hgrow, -, rfl⟩ := update_ok hop
    simp only [Request.canGrow, hclean] at hg
    refine Nat.le_trans (Nat.le_of_eq ?_) (hgrow hg).2
    have hrow : ∀ r ∈ a.rules,
      (if decide (r.id = ruleId) then updatedRow r clean now else r).enabled =
        (if r.id = ruleId then clean.merge existing else r).enabled ∧
        ruleLineCount (if decide (r.id = ruleId) then updatedRow r clean now else r) =
          ruleLineCount (if r.id = ruleId then clean.merge existing else r) := by
      intro r hr
      by_cases hid : r.id = ruleId
      · obtain rfl := Rows.eq_of_find hfind hr hid
        simp only [hid, decide_true, if_true]
        exact ⟨rfl, rfl⟩
      · simp only [hid, decide_false, Bool.false_eq_true, if_false, and_self]
    exact totalLineCount_map_congr (fun r hr => (hrow r hr).1) fun r hr => (hrow r hr).2
  | delete ruleId => cases hg
  | createBulk list =>
    obtain ⟨⟨reply, b⟩, hop, rfl⟩ := map_eq_ok.mp h
    obtain ⟨cleans, fresh, reIds, -, -, hre, -, htotal, rfl⟩ := createBulk_ok hop
    obtain ⟨news, hrows, -, hids, hnews⟩ := rows_insertAll now a.table fresh
    refine Nat.le_trans (Nat.le_of_eq ?_) htotal
    have hnew : news.map (fun r => if decide (r.id ∈ reIds) then
        { r with enabled := true, armedOn := some now } else r) = news := by
      rw [List.map_congr_left fun r hr => ?_, List.map_id]
      refine if_neg fun hin => ?_
      obtain ⟨e, he, hid⟩ := List.mem_map.mp (hre ▸ of_decide_eq_true hin)
      obtain ⟨q, hq, hqid⟩ := mem_reenable he
      have hlt := (a.table.ids q hq).2
      have hge := hids r hr
      omega
    have hpatched : (enableRules reIds now (insertAll fresh now a.table)).rows =
        (a.rules.map fun r => if decide (r.id ∈ reIds) then
          { r with enabled := true, armedOn := some now } else r) ++
          news := by
      change (insertAll fresh now a.table).rows.map _ = _
      rw [hrows, List.map_append, hnew]
      rfl
    have hold : totalLineCount (a.rules.map fun r =>
        if decide (r.id ∈ reIds) then { r with enabled := true, armedOn := some now } else r) n =
        totalLineCount (a.rules.map fun r => if r.id ∈ reIds then { r with enabled := true } else r)
          n := by
      refine totalLineCount_map_congr (fun r _ => ?_) fun r _ => ?_
      · by_cases hin : r.id ∈ reIds <;> simp [hin]
      · by_cases hin : r.id ∈ reIds <;> simp [hin, ruleLineCount]
    rw [Agent.rules, hpatched, totalLineCount_append, totalLineCount_append, hold, hnews]
  | disableBulk ids allowed => cases hg
  | setMode mode => cases hg

theorem serve_few (h : serve n now a req = .ok b) (hc : a.rules.length ≤ maxRulesPerAgent) :
    b.rules.length ≤ maxRulesPerAgent := by
  cases req with
  | create data =>
    obtain ⟨⟨r, b⟩, hop, rfl⟩ := map_eq_ok.mp h
    obtain ⟨clean, -, hcount, -, rfl⟩ := create_ok hop
    simpa [Agent.rules, insertRule, Rows.insert] using hcount
  | update ruleId data =>
    obtain ⟨⟨r, b⟩, hop, rfl⟩ := map_eq_ok.mp h
    obtain ⟨clean, existing, -, -, -, -, rfl⟩ := update_ok hop
    simpa [Agent.rules, Rows.patch] using hc
  | delete ruleId =>
    obtain ⟨-, rfl⟩ := delete_ok h
    exact Nat.le_trans (List.length_filter_le _ _) hc
  | createBulk list =>
    obtain ⟨⟨reply, b⟩, hop, rfl⟩ := map_eq_ok.mp h
    obtain ⟨cleans, fresh, reIds, -, -, -, hcount, -, rfl⟩ := createBulk_ok hop
    obtain ⟨news, hrows, hlen, -, -⟩ := rows_insertAll now a.table fresh
    have hrules : (enableRules reIds now (insertAll fresh now a.table)).rows.length =
        (a.rules ++ news).length := by
      rw [enableRules, Rows.patch, List.length_map, hrows]
      rfl
    rw [Agent.rules, hrules, List.length_append, hlen]
    exact hcount
  | disableBulk ids allowed =>
    obtain ⟨⟨ruleIds, b⟩, hop, rfl⟩ := map_eq_ok.mp h
    obtain ⟨-, -, rfl⟩ := disableBulk_ok hop
    simpa [Agent.rules, disableRules, Rows.patch] using hc
  | setMode mode =>
    obtain ⟨m, -, -, -, rfl⟩ := setMode_ok h
    exact hc

end FloppyGuard.Ingress
