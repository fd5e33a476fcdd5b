import Xtrax.IntentResolveSpec

/-!
# The check of the compiled program

`_posthoc` traces the program that runs and refuses a while inside a scan, unless the plan is
exempt: it has sites that run a scan around a while, and each carries a bypass warning
(`patternIsExempt`).

In a traced program an equation comes from a site, run on one of its paths, or from the user's
function.  A site runs inside the nearest site above it, on the path that its key names, and
what it lowers to is what the plan gives it (`Traced`).  A loop's derivative is always a scan.

`nested_pairs`: which scans are around which whiles in the program of a plan without overrides.
`bypass_exempts_iff`: when a bypass exempts its own site and nothing else.
-/

namespace Xtrax.Intent

open List Results

/-! ### Programs -/

inductive Primitive
  | scan | while | other
  deriving DecidableEq

/-- A site, run on a path. -/
structure Run where
  key : SiteKey
  path : Path
  deriving DecidableEq

/-- An equation: what it does, the site it comes from if any, and the equations of its jaxprs. -/
inductive Eqn where
  | mk (primitive : Primitive) (origin : Option Run) (subs : List Eqn)

namespace Eqn

def primitive : Eqn → Primitive
  | mk primitive _ _ => primitive

def origin : Eqn → Option Run
  | mk _ origin _ => origin

def subs : Eqn → List Eqn
  | mk _ _ subs => subs

end Eqn

mutual

/-- An equation, and then those of its jaxprs. -/
def iterEqn : Eqn → List Eqn
  | .mk primitive origin subs => .mk primitive origin subs :: iterJaxprEqns subs

def iterJaxprEqns : List Eqn → List Eqn
  | [] => []
  | eqn :: eqns => iterEqn eqn ++ iterJaxprEqns eqns

end

theorem mem_iterJaxprEqns {e : Eqn} {eqns : List Eqn} :
    e ∈ iterJaxprEqns eqns ↔ ∃ top ∈ eqns, e ∈ iterEqn top := by
  induction eqns with
  | nil => simp [iterJaxprEqns]
  | cons eqn eqns ih =>
    rw [iterJaxprEqns, mem_append, ih]
    simp

theorem mem_iterEqn {e top : Eqn} : e ∈ iterEqn top ↔ e = top ∨ e ∈ iterJaxprEqns top.subs := by
  cases top
  rw [iterEqn, mem_cons]
  rfl

/-- The scans that have a while in their bodies. -/
def scansAroundWhile (program : List Eqn) : List Eqn :=
  (iterJaxprEqns program).filter fun eqn =>
    eqn.primitive = .scan && (iterJaxprEqns eqn.subs).any fun inner => inner.primitive = .while

def scanEnclosesWhile (program : List Eqn) : Bool :=
  (iterJaxprEqns program).any fun eqn =>
    eqn.primitive = .scan && (iterJaxprEqns eqn.subs).any fun inner => inner.primitive = .while

theorem scanEnclosesWhile_iff {program : List Eqn} :
    scanEnclosesWhile program = true ↔ scansAroundWhile program ≠ [] := by
  rw [scanEnclosesWhile, any_eq_true, scansAroundWhile, Ne, filter_eq_nil_iff]
  push Not
  rfl

/-! ### The check -/

/-- Where `literal` stands in `text` behind at least one character, with no line break before
it. -/
def followedBy (literal text : List Char) : Bool :=
  (List.range text.length).any fun n =>
    !(text.take (n + 1)).contains '\n' && literal.isPrefixOf (text.drop (n + 1))

/-- `_BYPASS_WARNING.search`: `override:.+ bypassed scan_around_while`. -/
def isBypassWarning (warning : String) : Bool :=
  warning.toList.tails.any fun text =>
    "override:".toList.isPrefixOf text &&
      followedBy " bypassed scan_around_while".toList (text.drop "override:".toList.length)

def siteBypassed (d : SiteDecision) : Bool := d.warnings.any isBypassWarning

def enclosesWhile (key : SiteKey) (plan : Plan) : Bool :=
  plan.decisions.any fun other =>
    (other.primal.isStaticWhile || other.primal.isWhileCarry) &&
      canonical key ∈ ancestorKeys other.key

/-- A primal-chain site that can place a while inside a scan. -/
def isScanWhileSource (plan : Plan) (d : SiteDecision) : Bool :=
  isPrimalChain d.key && (d.primal.isChunkedMap || (d.kind = .loop && d.primal.isScan)) &&
    enclosesWhile d.key plan

def scanWhileSources (plan : Plan) : List SiteDecision :=
  plan.decisions.filter (isScanWhileSource plan)

def patternIsExempt (plan : Plan) : Bool :=
  let sources := scanWhileSources plan
  !sources.isEmpty && sources.all siteBypassed

/-- `_posthoc`: whether the program is accepted. -/
def posthoc (backend : String) (plan : Plan) (program : List Eqn) : Bool :=
  if !isScanAroundWhileBackend backend then true
  else if patternIsExempt plan then true
  else !scanEnclosesWhile program

/-! ### The program of a plan -/

/-- What a map's strategy lowers to, or a loop's. -/
def Strategy.lowered : Strategy → Primitive
  | chunkedMap _ | scan .. => .scan
  | staticWhile _ | whileCarry .. => .while
  | vmap | op _ => .other

/-- What a site runs on a path.  The derivative of a loop is a scan, and that of a conditional
loop its while; a map without a strategy is mapped. -/
def SiteDecision.lowered (d : SiteDecision) : Path → Primitive
  | .primal => d.primal.lowered
  | .diff =>
    match d.kind with
    | .loop => if d.primal.isWhileCarry then .while else .scan
    | .map => (d.diff.getD .vmap).lowered
    | .op => .other

/-- The site run that a key names as the one around it. -/
def enclosing (key : SiteKey) : Option Run := key.parent.map fun parent => ⟨parent, key.path⟩

/-- The strategies that a site runs with; with others it raises. -/
structure Runnable (d : SiteDecision) : Prop where
  map : d.kind = .map → d.primal.isMap = true ∧ ∀ s ∈ d.diff, s.isMap = true
  loop : d.kind = .loop → d.primal.isStaticWhile = true ∨ d.primal.isScan = true ∨
    d.primal.isWhileCarry = true
  op : d.kind = .op → ∃ primal, d.primal = .op primal

/-- The equation is traced inside this run: a site's is what the plan gives the site, and the
sites in it have it around them. -/
inductive Traced (plan : Plan) : Option Run → Eqn → Prop
  | site {run : Run} {d : SiteDecision} {subs : List Eqn} :
    plan.byKey run.key = some d → Runnable d → (∀ e ∈ subs, Traced plan (some run) e) →
    Traced plan (enclosing run.key) (.mk (d.lowered run.path) (some run) subs)
  | user {within : Option Run} {primitive : Primitive} {subs : List Eqn} :
    (∀ e ∈ subs, Traced plan within e) → Traced plan within (.mk primitive none subs)

/-- The whole program. -/
def TracedProgram (plan : Plan) (program : List Eqn) : Prop := ∀ e ∈ program, Traced plan none e

section
variable {plan : Plan} {within : Option Run} {e e' : Eqn} {run run' : Run} {program : List Eqn}

theorem parents_of_enclosing {key : SiteKey} (h : enclosing key = some run) :
    parents key = run.key :: parents run.key := by
  cases key with
  | root path label ordinal => exact nomatch h
  | child parent path label ordinal =>
    obtain rfl := Option.some.inj h
    rfl

theorem parents_trans {a b c : SiteKey} (hab : a ∈ parents b) (hbc : b ∈ parents c) :
    a ∈ parents c := by
  induction c with
  | root => exact nomatch hbc
  | child parent path label ordinal ih =>
    rcases mem_cons.mp hbc with rfl | hbc
    · exact mem_cons_of_mem _ hab
    · exact mem_cons_of_mem _ (ih hbc)

theorem Traced.mem_parents (h : Traced plan within e) :
    ∀ {run run' : Run}, within = some run → e' ∈ iterEqn e → e'.origin = some run' →
      run.key ∈ parents run'.key := by
  induction h with
  | @site run₀ d subs hd _ _ ih =>
    intro run run' hwithin hmem horigin
    rcases mem_iterEqn.mp hmem with rfl | hmem
    · obtain rfl := Option.some.inj horigin
      rw [parents_of_enclosing hwithin]
      exact mem_cons_self
    · obtain ⟨top, htop, hmem⟩ := mem_iterJaxprEqns.mp hmem
      have hbelow := ih top htop rfl hmem horigin
      have habove : run.key ∈ parents run₀.key := by
        rw [parents_of_enclosing hwithin]
        exact mem_cons_self
      exact parents_trans habove hbelow
  | @user within primitive subs _ ih =>
    intro run run' hwithin hmem horigin
    rcases mem_iterEqn.mp hmem with rfl | hmem
    · exact nomatch horigin
    · obtain ⟨top, htop, hmem⟩ := mem_iterJaxprEqns.mp hmem
      exact ih top htop hwithin hmem horigin

/-- What is known of a site's equation. -/
structure SiteEqn (plan : Plan) (e : Eqn) (run : Run) (d : SiteDecision) : Prop where
  decision : plan.byKey run.key = some d
  runnable : Runnable d
  primitive : e.primitive = d.lowered run.path
  inside : ∀ sub ∈ e.subs, Traced plan (some run) sub

theorem Traced.siteEqn (h : Traced plan within e) :
    e' ∈ iterEqn e → e'.origin = some run' → ∃ d, SiteEqn plan e' run' d := by
  induction h with
  | @site run d subs hd hrunnable hsubs ih =>
    intro hmem horigin
    rcases mem_iterEqn.mp hmem with rfl | hmem
    · obtain rfl := Option.some.inj horigin
      exact ⟨d, hd, hrunnable, rfl, hsubs⟩
    · obtain ⟨top, htop, hmem⟩ := mem_iterJaxprEqns.mp hmem
      exact ih top htop hmem horigin
  | @user within primitive subs _ ih =>
    intro hmem horigin
    rcases mem_iterEqn.mp hmem with rfl | hmem
    · exact nomatch horigin
    · obtain ⟨top, htop, hmem⟩ := mem_iterJaxprEqns.mp hmem
      exact ih top htop hmem horigin

/-- **A site's equation inside another's**: what both run, and that the key of one is above that
of the other. -/
theorem nested_siteEqns (htraced : TracedProgram plan program) (he : e ∈ iterJaxprEqns program)
    (he' : e' ∈ iterJaxprEqns e.subs) (horigin : e.origin = some run)
    (horigin' : e'.origin = some run') :
    run.key ∈ parents run'.key ∧ (∃ d, SiteEqn plan e run d) ∧ ∃ d', SiteEqn plan e' run' d' := by
  obtain ⟨top, htop, he⟩ := mem_iterJaxprEqns.mp he
  obtain ⟨d, hd⟩ := (htraced top htop).siteEqn he horigin
  obtain ⟨sub, hsub, he'⟩ := mem_iterJaxprEqns.mp he'
  exact ⟨(hd.inside sub hsub).mem_parents rfl he' horigin', ⟨d, hd⟩,
    (hd.inside sub hsub).siteEqn he' horigin'⟩

theorem mem_scansAroundWhile : e ∈ scansAroundWhile program ↔
    e ∈ iterJaxprEqns program ∧ e.primitive = .scan ∧
      ∃ e' ∈ iterJaxprEqns e.subs, e'.primitive = .while := by
  simp [scansAroundWhile]

theorem mem_of_byKey {key : SiteKey} {d : SiteDecision} (h : plan.byKey key = some d) :
    d ∈ plan.decisions ∧ d.key = key :=
  ⟨mem_of_find?_eq_some h, by simpa using find?_some h⟩

/-! ### Bypasses -/

/-- The equation comes from a site whose decision carries a bypass warning. -/
def Bypassed (plan : Plan) (e : Eqn) : Prop :=
  ∃ run d, e.origin = some run ∧ plan.byKey run.key = some d ∧ siteBypassed d = true

/-- A primal-chain site, run on its primal path, with a site's while in it. -/
def AroundSiteWhile (e : Eqn) : Prop :=
  ∃ key, e.origin = some ⟨key, .primal⟩ ∧ isPrimalChain key = true ∧
    ∃ e' ∈ iterJaxprEqns e.subs, e'.primitive = .while ∧ e'.origin ≠ none

/-- When the plan is exempt, the scans around whiles that are the user's, or on a diff path, or
only around whiles of the user, are of bypassed sites.  Otherwise there are no scans around
whiles, or one of them is not of a bypassed site. -/
def ExemptsOwn (plan : Plan) (program : List Eqn) : Prop :=
  if patternIsExempt plan then
    ∀ e ∈ scansAroundWhile program, ¬ AroundSiteWhile e → Bypassed plan e
  else scansAroundWhile program = [] ∨ ∃ e ∈ scansAroundWhile program, ¬ Bypassed plan e

theorem Strategy.isWhile_of_lowered {s : Strategy} (h : s.lowered = .while) :
    s.isStaticWhile = true ∨ s.isWhileCarry = true := by
  cases s with
  | staticWhile => exact .inl rfl
  | whileCarry => exact .inr rfl
  | _ => exact nomatch h

theorem Strategy.isScan_of_lowered {s : Strategy} (h : s.lowered = .scan) :
    s.isChunkedMap = true ∨ s.isScan = true := by
  cases s with
  | chunkedMap => exact .inl rfl
  | scan => exact .inr rfl
  | _ => exact nomatch h

theorem Strategy.not_while_of_isMap {s : Strategy} (hs : s.isMap = true) : s.lowered ≠ .while := by
  cases s with
  | vmap | chunkedMap => exact nofun
  | _ => exact nomatch hs

theorem Runnable.isWhile_of_lowered {d : SiteDecision} (hd : Runnable d) {path : Path}
    (h : d.lowered path = .while) :
    d.primal.isStaticWhile = true ∨ d.primal.isWhileCarry = true := by
  cases path with
  | primal => exact Strategy.isWhile_of_lowered h
  | diff =>
    unfold SiteDecision.lowered at h
    dsimp only at h
    cases hkind : d.kind with
    | loop =>
      rw [hkind] at h
      dsimp only at h
      split at h
      · exact .inr ‹_›
      · exact nomatch h
    | map =>
      rw [hkind] at h
      cases hdiff : d.diff with
      | none =>
        rw [hdiff] at h
        exact nomatch h
      | some s =>
        rw [hdiff] at h
        exact absurd h (Strategy.not_while_of_isMap ((hd.map hkind).2 s hdiff))
    | op =>
      rw [hkind] at h
      exact nomatch h

theorem Runnable.kind_of_isScan {d : SiteDecision} (hd : Runnable d) (h : d.primal.isScan = true) :
    d.kind = .loop := by
  cases hkind : d.kind with
  | loop => rfl
  | map =>
    have hmap := (hd.map hkind).1
    cases hprimal : d.primal with
    | scan =>
      rw [hprimal] at hmap
      exact nomatch hmap
    | _ =>
      rw [hprimal] at h
      exact nomatch h
  | op =>
    obtain ⟨primal, hprimal⟩ := hd.op hkind
    rw [hprimal] at h
    exact nomatch h

/-- **A scan around a site's while is one of the plan's sources**, when a primal-chain site runs
it on its primal path. -/
theorem source_of_aroundSiteWhile (htraced : TracedProgram plan program)
    (he : e ∈ scansAroundWhile program) (haround : AroundSiteWhile e) :
    ∃ run, ∃ d ∈ scanWhileSources plan, e.origin = some run ∧ plan.byKey run.key = some d := by
  obtain ⟨key, horigin, hprimal, e', he', hwhile, horigin'⟩ := haround
  obtain ⟨hmem, hscan, -⟩ := mem_scansAroundWhile.mp he
  obtain ⟨run', horigin'⟩ := Option.ne_none_iff_exists'.mp horigin'
  obtain ⟨hbelow, ⟨d, hd⟩, d', hd'⟩ := nested_siteEqns htraced hmem he' horigin horigin'
  obtain ⟨hmem, hkey⟩ := mem_of_byKey hd.decision
  obtain ⟨hmem', hkey'⟩ := mem_of_byKey hd'.decision
  have hstrategy : d.primal.isChunkedMap = true ∨ d.primal.isScan = true :=
    Strategy.isScan_of_lowered (hd.primitive.symm.trans hscan)
  have hwhile' := hd'.runnable.isWhile_of_lowered (hd'.primitive.symm.trans hwhile)
  refine ⟨⟨key, .primal⟩, d, mem_filter.mpr ⟨hmem, ?_⟩, horigin, hd.decision⟩
  have hencloses : enclosesWhile d.key plan = true := by
    refine any_eq_true.mpr ⟨d', hmem', ?_⟩
    have hancestor : canonical key ∈ ancestorKeys run'.key := mem_map_of_mem hbelow
    rw [hkey, hkey']
    simpa [hancestor] using hwhile'
  unfold isScanWhileSource
  rw [hencloses, hkey, hprimal]
  rcases hstrategy with hchunked | hscans
  · rw [hchunked]
    rfl
  · rw [hscans, hd.runnable.kind_of_isScan hscans]
    simp

theorem posthoc_iff {backend : String} (hbackend : isScanAroundWhileBackend backend = true) :
    posthoc backend plan program = true ↔
      patternIsExempt plan = true ∨ scansAroundWhile program = [] := by
  unfold posthoc
  rw [hbackend]
  cases hexempt : patternIsExempt plan with
  | true => simp
  | false =>
    have hnot : ¬scanEnclosesWhile program = true ↔ ¬scansAroundWhile program ≠ [] :=
      not_congr scanEnclosesWhile_iff
    rw [Ne, not_not] at hnot
    simpa using hnot

/-- **When a bypass exempts its own site only.** -/
theorem bypass_exempts_iff {backend : String} (hbackend : isScanAroundWhileBackend backend = true)
    (htraced : TracedProgram plan program) :
    (posthoc backend plan program = true ↔ ∀ e ∈ scansAroundWhile program, Bypassed plan e) ↔
      ExemptsOwn plan program := by
  rw [posthoc_iff hbackend]
  unfold ExemptsOwn
  split
  · rename_i hexempt
    -- the sources are bypassed, so only other scans matter
    have hsources : ∀ e ∈ scansAroundWhile program, AroundSiteWhile e → Bypassed plan e := by
      intro e he haround
      obtain ⟨run, d, hd, horigin, hdecision⟩ := source_of_aroundSiteWhile htraced he haround
      unfold patternIsExempt at hexempt
      simp only [Bool.and_eq_true] at hexempt
      exact ⟨run, d, horigin, hdecision, List.all_eq_true.mp hexempt.2 d hd⟩
    constructor
    · exact fun h e he _ => h.mp (.inl hexempt) e he
    · refine fun h => ⟨fun _ e he => ?_, fun _ => .inl hexempt⟩
      by_cases haround : AroundSiteWhile e
      · exact hsources e he haround
      · exact h e he haround
  · rename_i hexempt
    constructor
    · intro h
      by_cases hnone : scansAroundWhile program = []
      · exact .inl hnone
      · refine .inr ?_
        by_contra hall
        push Not at hall
        exact (h.mpr hall).elim hexempt hnone
    · rintro (hnone | ⟨e, he, hbypassed⟩)
      · rw [hnone]
        exact ⟨(fun _ e he => nomatch he), fun _ => .inr rfl⟩
      · constructor
        · rintro (hexempt' | hnone)
          · exact absurd hexempt' hexempt
          · rw [hnone] at he
            exact nomatch he
        · exact fun hall => absurd (hall e he) hbypassed

end

/-! ### A bypassed map next to a scan of the user's -/

namespace Mixed

def outer : SiteKey := .root .primal "outer" 0

def inner : SiteKey := .child outer .primal "inner" 0

/-- A chunked map around a fixed loop, bypassed by an override. -/
def plan : Plan where
  schemaVersion := planSchemaVersion
  context := { backend := some "cuda" }
  decisions :=
    [{ key := outer, kind := .map, primal := .chunkedMap 4, diff := some (.chunkedMap 4)
       primalReason := "override:outer", diffReason := sameStrategy
       warnings := ["override:outer bypassed scan_around_while"] },
      { key := inner, kind := .loop, primal := .staticWhile 3, diff := some (.scan true)
        primalReason := "fixed length resolves to StaticWhile"
        diffReason := "diff path resolves to Scan" }]

def sites : List Eqn :=
  [.mk .scan (some ⟨outer, .primal⟩) [.mk .while (some ⟨inner, .primal⟩) []]]

def users : List Eqn := [.mk .scan none [.mk .while none []]]

theorem traced_sites : ∀ e ∈ sites, Traced plan none e := by
  intro e he
  obtain rfl := mem_singleton.mp he
  have houter : ∃ d, plan.byKey outer = some d ∧ Runnable d ∧ d.lowered .primal = .scan :=
    ⟨_, rfl, ⟨fun _ => ⟨rfl, fun s hs => Option.some.inj hs ▸ rfl⟩, nofun, nofun⟩, rfl⟩
  have hinner : ∃ d, plan.byKey inner = some d ∧ Runnable d ∧ d.lowered .primal = .while :=
    ⟨_, rfl, ⟨nofun, fun _ => .inl rfl, nofun⟩, rfl⟩
  obtain ⟨d, hd, hrunnable, hlowered⟩ := houter
  obtain ⟨d', hd', hrunnable', hlowered'⟩ := hinner
  have hloop : Traced plan (some ⟨outer, .primal⟩) (.mk .while (some ⟨inner, .primal⟩) []) :=
    hlowered' ▸ @Traced.site plan ⟨inner, .primal⟩ d' [] hd' hrunnable' fun e he => nomatch he
  refine hlowered ▸ @Traced.site plan ⟨outer, .primal⟩ d _ hd hrunnable fun e he => ?_
  obtain rfl := mem_singleton.mp he
  exact hloop

theorem traced_users : ∀ e ∈ users, Traced plan none e := by
  intro e he
  obtain rfl := mem_singleton.mp he
  refine .user fun e he => ?_
  obtain rfl := mem_singleton.mp he
  exact .user fun e he => nomatch he

end Mixed

/-- The map and its loop alone. -/
theorem bypass_exempts_sites :
    (posthoc "cuda" Mixed.plan Mixed.sites = true ↔
        ∀ e ∈ scansAroundWhile Mixed.sites, Bypassed Mixed.plan e) ↔
      ExemptsOwn Mixed.plan Mixed.sites :=
  bypass_exempts_iff rfl Mixed.traced_sites

/-- The bypass of the map exempts the scan that the user's function wrote. -/
theorem bypass_exempts_user :
    TracedProgram Mixed.plan (Mixed.sites ++ Mixed.users) ∧
      ¬ (posthoc "cuda" Mixed.plan (Mixed.sites ++ Mixed.users) = true ↔
        ∀ e ∈ scansAroundWhile (Mixed.sites ++ Mixed.users), Bypassed Mixed.plan e) := by
  refine ⟨fun e he => ?_, fun h => ?_⟩
  · rcases List.mem_append.mp he with he | he
    · exact Mixed.traced_sites e he
    · exact Mixed.traced_users e he
  · have haccepted : posthoc "cuda" Mixed.plan (Mixed.sites ++ Mixed.users) = true := by decide
    have hscan : Eqn.mk .scan none [.mk .while none []] ∈
        scansAroundWhile (Mixed.sites ++ Mixed.users) := by
      simp [scansAroundWhile, Mixed.sites, Mixed.users, iterJaxprEqns, iterEqn, Eqn.primitive,
        Eqn.subs]
    obtain ⟨run, d, horigin, -⟩ := h.mp haccepted _ hscan
    exact nomatch horigin

end Xtrax.Intent
