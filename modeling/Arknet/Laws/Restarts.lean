import Arknet.Consensus.Signing
import Arknet.Laws.HexText
import Arknet.Lib.Latest
import Arknet.Node.Boot

/-!
Starts, stops and commits of a validator in any order. The models of the genesis file are seeded once,
however often the node starts before its first block, and the database is what the commits alone make of them
(`restarts_unseen`).
-/

namespace Arknet.Laws

open Machine Runs Arknet.Chain Arknet.Consensus Arknet.Node

/-! ## The file, decoded -/

/-- The file with its hexadecimal fields decoded. -/
structure Decodes (K : Primitives) (file : GenesisFile) (cfg : GenesisConfig) : Prop where
  chainId : cfg.chainId = file.chainId
  initialHeight : cfg.initialHeight = file.initialHeight
  validators : file.validators.mapM (GenesisValidator.toInfo K) = .ok cfg.validators
  initialAccounts : cfg.initialAccounts = [] ∧ file.initialAccounts = []
  params : cfg.params = file.params
  genesisMessage : cfg.genesisMessage = file.genesisMessage
  models : file.models.mapM GenesisModel.manifest = .ok cfg.models

/-- The file decodes to a configuration that passes the checks. -/
def Configures (K : Primitives) (genesis : Option GenesisFile) (cfg : GenesisConfig) : Prop :=
  ∃ file, genesis = some file ∧ Decodes K file cfg ∧ validateGenesis cfg = .ok ()

section

variable {K : Primitives}

theorem decoding_ok {α β ε : Type} {x : Except ε α} {f : α → Except ε β} {b : β} :
    (x >>= f) = .ok b ↔ ∃ a, x = .ok a ∧ f a = .ok b := by
  cases x <;> simp [bind, Except.bind]

theorem mapM_nil_iff {α β ε : Type} {f : α → Except ε β} {as : List α} {bs : List β} (h : as.mapM f = .ok bs) :
    bs = [] ↔ as = [] := by
  cases as with
  | nil =>
    cases h
    exact iff_of_true rfl rfl
  | cons a as =>
    rw [List.mapM_cons] at h
    obtain ⟨b, -, h⟩ := decoding_ok.mp h
    obtain ⟨rest, -, h⟩ := decoding_ok.mp h
    cases h
    exact iff_of_false (List.cons_ne_nil _ _) (List.cons_ne_nil _ _)

/-- A file that passes its checks and decodes is a configuration that passes them. -/
theorem validate_decodes {file : GenesisFile} {infos : List ValidatorInfo} {ms : List OnChainModelManifest}
    (hvalid : file.validate = .ok ()) (hinfos : file.validators.mapM (GenesisValidator.toInfo K) = .ok infos)
    (hms : file.models.mapM GenesisModel.manifest = .ok ms) :
    Configures K (some file) ⟨file.chainId, file.initialHeight, infos, [], file.params,
      file.genesisMessage, ms⟩ := by
  unfold GenesisFile.validate at hvalid
  split_ifs at hvalid with hchain hnone haccounts hheight htarget hlimit
  refine ⟨file, rfl, ⟨rfl, rfl, hinfos, ⟨rfl, not_not.mp haccounts⟩, rfl, rfl, hms⟩, ?_⟩
  unfold validateGenesis
  rw [if_neg hchain, if_neg (fun h => hnone ((mapM_nil_iff hinfos).mp h)), if_neg (not_not.mpr rfl),
    if_neg hheight, if_neg htarget, if_neg hlimit]

end

/-! ## Seeding -/

/-- A database that has the models and nothing else. -/
def seeded (ms : List OnChainModelManifest) : State :=
  { State.empty with models := Latest.fill OnChainModelManifest.modelId .empty ms }

def withModels (s : State) (ms : List OnChainModelManifest) : State :=
  { s with models := Latest.fill OnChainModelManifest.modelId s.models ms }

theorem seedGenesisModels_commit (ctx : BlockCtx) (ms : List OnChainModelManifest) :
    (seedGenesisModels ctx ms).commit = withModels ctx.commit ms := by
  induction ms generalizing ctx with
  | nil => rfl
  | cons m ms ih =>
    rw [seedGenesisModels, List.foldl_cons]
    exact ih (ctx.setModel m.modelId m)

theorem manifest_modelId {gm : GenesisModel} {m : OnChainModelManifest} (h : gm.manifest = .ok m) :
    m.modelId = gm.modelId := by
  unfold GenesisModel.manifest at h
  split at h
  · cases h
  · cases h
    rfl

theorem seedModels_ok {ctx ctx' : BlockCtx} {gms : List GenesisModel} : seedModels ctx gms = .ok ctx' ↔
    ∃ ms, gms.mapM GenesisModel.manifest = .ok ms ∧ ctx' = seedGenesisModels ctx ms := by
  induction gms generalizing ctx with
  | nil =>
    constructor
    · intro h
      cases h
      exact ⟨[], rfl, rfl⟩
    · rintro ⟨ms, hms, rfl⟩
      cases hms
      rfl
  | cons gm gms ih =>
    rw [List.mapM_cons, seedModels, decoding_ok]
    constructor
    · rintro ⟨m, hm, hrest⟩
      obtain ⟨ms, hms, rfl⟩ := ih.mp hrest
      refine ⟨m :: ms, by rw [hm, hms]; rfl, ?_⟩
      rw [seedGenesisModels, seedGenesisModels, List.foldl_cons, manifest_modelId hm]
    · rintro ⟨all, hall, rfl⟩
      obtain ⟨m, hm, hrest⟩ := decoding_ok.mp hall
      obtain ⟨ms, hms, hcons⟩ := decoding_ok.mp hrest
      cases hcons
      refine ⟨m, hm, ih.mpr ⟨ms, hms, ?_⟩⟩
      rw [seedGenesisModels, seedGenesisModels, List.foldl_cons, manifest_modelId hm]

/-! ## One start -/

/-- What a start leaves of the database of a node whose genesis has these models. -/
def seedOnce (s : State) (ms : List OnChainModelManifest) : State :=
  if s.metaHeight = none then withModels s ms else s

/-- The engine of a configuration, for the node with this key. -/
structure Boots (K : Primitives) {PublicKey : Type} (fromBytes : List UInt8 → Exec PublicKey)
    (genesis : Option GenesisFile) (localKey : Bytes 32) (cfg : GenesisConfig) (e : BootedEngine PublicKey) :
    Prop where
  configures : Configures K genesis cfg
  set : ChainValidatorSet.fromInfos fromBytes cfg.validators = .ok (.ok e.validatorSet)
  listed : ∃ info ∈ cfg.validators, info.consensusKey.bytes = localKey.toList
  config : e.config = {
    chainId := cfg.chainId
    version := 1
    initialHeight := 1
    validatorCount := e.validatorSet.validators.length
    baseFee := cfg.params.baseFeeAmount
    gasLimit := cfg.params.gasLimit
    gasTarget := cfg.params.gasTarget
    localNodeId := K.blake3 localKey.toList
    genesisMessage := cfg.genesisMessage }
  localAddress : e.localAddress = (K.blake3 localKey.toList).take 20 (by decide)

section

variable {K : Primitives} {PublicKey : Type} {fromBytes : List UInt8 → Exec PublicKey}
  {genesis : Option GenesisFile} {localKey : Bytes 32} {cfg : GenesisConfig} {s s' : State}
  {booted : Except BootError (BootedEngine PublicKey)} {e : BootedEngine PublicKey}

/-- A file that decodes passes the checks on its decoded fields only together with them. -/
theorem decodes_validate {file : GenesisFile} (hd : Decodes K file cfg) (hv : validateGenesis cfg = .ok ()) :
    file.validate = .ok () := by
  have hall : ∀ vs infos, vs.mapM (GenesisValidator.toInfo K) = .ok infos → decodeAll vs = .ok () := by
    intro vs
    induction vs with
    | nil => exact fun _ _ => rfl
    | cons v vs ih =>
      intro infos h
      rw [List.mapM_cons] at h
      obtain ⟨info, hinfo, h⟩ := decoding_ok.mp h
      obtain ⟨rest, hrest, -⟩ := decoding_ok.mp h
      obtain ⟨pubkey, hpubkey, h⟩ := decoding_ok.mp hinfo
      obtain ⟨operator, hoperator, -⟩ := decoding_ok.mp h
      rw [decodeAll, hpubkey, hoperator]
      exact ih rest hrest
  unfold validateGenesis at hv
  split_ifs at hv with hchain hnone haccounts hheight htarget hlimit
  unfold GenesisFile.validate
  rw [← hd.chainId, if_neg hchain, if_neg (fun h => hnone ((mapM_nil_iff hd.validators).mpr h)),
    if_neg (not_not.mpr hd.initialAccounts.2), ← hd.initialHeight, if_neg hheight, ← hd.params, if_neg htarget,
    if_neg hlimit]
  exact hall _ _ hd.validators

/-- A start with a configuration. -/
theorem startValidator_configured (fromBytes : List UInt8 → Exec PublicKey) (localKey : Bytes 32)
    (hc : Configures K genesis cfg) (s : State) :
    ∃ file, Decodes K file cfg ∧ startValidator K fromBytes genesis localKey s = (do
      let built ← ChainValidatorSet.fromInfos fromBytes cfg.validators
      match built with
      | .error what => pure (.error (.validatorSet what), s)
      | .ok set => do
        let booted ← bootEngine K file cfg.validators set localKey
        pure (booted, seedOnce s cfg.models)) := by
  obtain ⟨file, rfl, hd, hv⟩ := hc
  refine ⟨file, hd, ?_⟩
  have hseed : ∀ ctx, seedModels ctx file.models = .ok (seedGenesisModels ctx cfg.models) := fun ctx =>
    seedModels_ok.mpr ⟨cfg.models, hd.models, rfl⟩
  have hstate : withModels s [] = s := rfl
  simp only [startValidator, decodes_validate hd hv, hd.validators, hseed, seedGenesisModels_commit,
    State.beginBlock_commit]
  refine bind_congr fun built => ?_
  cases built with
  | error what => rfl
  | ok set =>
    dsimp only
    unfold seedOnce
    by_cases hheight : s.metaHeight = none
    · by_cases hmodels : file.models = []
      · rw [if_neg (fun h => h.1 hmodels), if_pos hheight, (mapM_nil_iff hd.models).mpr hmodels, hstate]
      · rw [if_pos ⟨hmodels, hheight⟩, if_pos hheight]
    · rw [if_neg (fun h => hheight h.2), if_neg hheight]

theorem bootEngine_ok {file : GenesisFile} {infos : List ValidatorInfo} {set : ChainValidatorSet PublicKey}
    (h : bootEngine K file infos set localKey = .ok (.ok e)) (hheight : file.initialHeight = 0) :
    e.validatorSet = set ∧ (∃ info ∈ infos, info.consensusKey.bytes = localKey.toList) ∧
      e.localAddress = (K.blake3 localKey.toList).take 20 (by decide) ∧
      e.config = {
        chainId := file.chainId
        version := 1
        initialHeight := 1
        validatorCount := set.validators.length
        baseFee := file.params.baseFeeAmount
        gasLimit := file.params.gasLimit
        gasTarget := file.params.gasTarget
        localNodeId := K.blake3 localKey.toList
        genesisMessage := file.genesisMessage } := by
  unfold bootEngine at h
  split_ifs at h with hlisted
  · obtain ⟨initialHeight, hadd, h⟩ := bind_eq_ok.mp h
    cases h
    have hone : initialHeight = 1 := by
      rw [hheight, add_eq_ok] at hadd
      exact Fin.ext hadd
    obtain ⟨info, hinfo, hkey⟩ := List.any_eq_true.mp hlisted
    exact ⟨rfl, ⟨info, hinfo, of_decide_eq_true hkey⟩, rfl, by rw [hone]⟩
  · cases h

/-- What a start with a configuration does to the database, and which engine it makes. -/
theorem configured_start (hc : Configures K genesis cfg)
    (h : startValidator K fromBytes genesis localKey s = .ok (booted, s')) :
    (s' = s ∨ s' = seedOnce s cfg.models) ∧
      ∀ e, booted = .ok e → s' = seedOnce s cfg.models ∧ Boots K fromBytes genesis localKey cfg e := by
  obtain ⟨file, hd, hstart⟩ := startValidator_configured fromBytes localKey hc s
  rw [hstart] at h
  obtain ⟨built, hbuilt, h⟩ := bind_eq_ok.mp h
  cases built with
  | error what =>
    cases h
    exact ⟨.inl rfl, fun e he => by cases he⟩
  | ok set =>
    obtain ⟨booted', hbooted, h⟩ := bind_eq_ok.mp h
    cases h
    refine ⟨.inr rfl, ?_⟩
    rintro e rfl
    have hheight : file.initialHeight = 0 := by
      obtain ⟨_, -, -, hv⟩ := hc
      rw [← hd.initialHeight, (validateGenesis_ok hv).1]
    obtain ⟨rfl, hlisted, haddress, hconfig⟩ := bootEngine_ok hbooted hheight
    refine ⟨rfl, hc, hbuilt, hlisted, ?_, haddress⟩
    rw [hconfig, hd.chainId, hd.params, hd.genesisMessage]

/-- An engine that a configuration makes is made by every start. -/
theorem Boots.start (hb : Boots K fromBytes genesis localKey cfg e) (s : State) :
    startValidator K fromBytes genesis localKey s = .ok (.ok e, seedOnce s cfg.models) := by
  obtain ⟨file, hd, hstart⟩ := startValidator_configured fromBytes localKey hb.configures s
  have hheight : file.initialHeight = 0 := by
    obtain ⟨_, -, -, hv⟩ := hb.configures
    rw [← hd.initialHeight, (validateGenesis_ok hv).1]
  have hany : cfg.validators.any (fun i => i.consensusKey.bytes = localKey.toList) = true := by
    obtain ⟨info, hinfo, hkey⟩ := hb.listed
    exact List.any_eq_true.mpr ⟨info, hinfo, decide_eq_true hkey⟩
  have hadd : add file.initialHeight 1 = .ok 1 := by
    rw [hheight]
    exact add_eq_ok.mpr rfl
  have hboot : bootEngine K file cfg.validators e.validatorSet localKey = .ok (.ok e) := by
    have hconfig := hb.config
    have haddress := hb.localAddress
    obtain ⟨config, set, address⟩ := e
    dsimp only at hconfig haddress ⊢
    rw [bootEngine, if_neg (not_not.mpr hany), hadd, hconfig, haddress, hd.chainId, hd.params, hd.genesisMessage]
    rfl
  rw [hstart, hb.set, ok_bind]
  dsimp only
  rw [hboot]
  rfl

/-- Without a configuration no start of a new database makes an engine or writes anything. -/
theorem unconfigured_start (hn : ∀ cfg, ¬ Configures K genesis cfg) (hheight : s.metaHeight = none)
    (h : startValidator K fromBytes genesis localKey s = .ok (booted, s')) :
    s' = s ∧ ∃ err, booted = .error err := by
  unfold startValidator at h
  split at h
  · cases h
    exact ⟨rfl, _, rfl⟩
  split at h
  · cases h
    exact ⟨rfl, _, rfl⟩
  rename_i file _ hvalid
  split at h
  · cases h
    exact ⟨rfl, _, rfl⟩
  rename_i infos hinfos
  obtain ⟨built, hbuilt, h⟩ := bind_eq_ok.mp h
  cases built with
  | error what =>
    cases h
    exact ⟨rfl, _, rfl⟩
  | ok set =>
    dsimp only at h
    split at h
    · split at h
      · cases h
        exact ⟨rfl, _, rfl⟩
      · rename_i ctx hseed
        obtain ⟨ms, hms, -⟩ := seedModels_ok.mp hseed
        exact absurd (validate_decodes hvalid hinfos hms) (hn _)
    · rename_i hnone
      have hmodels : file.models = [] := by
        by_contra hne
        exact hnone ⟨hne, hheight⟩
      have hms : file.models.mapM GenesisModel.manifest = .ok [] := by
        rw [hmodels]
        rfl
      exact absurd (validate_decodes hvalid hinfos hms) (hn _)

theorem toInfo_jailed {gv : GenesisValidator} {info : ValidatorInfo} (h : gv.toInfo K = .ok info) :
    info.jailed = false := by
  obtain ⟨pubkey, -, h⟩ := decoding_ok.mp h
  obtain ⟨operator, -, h⟩ := decoding_ok.mp h
  cases h
  rfl

theorem mem_of_mapM {α β ε : Type} {f : α → Except ε β} {as : List α} {bs : List β} (h : as.mapM f = .ok bs) :
    ∀ b ∈ bs, ∃ a, f a = .ok b := by
  induction as generalizing bs with
  | nil =>
    cases h
    intro b hb
    cases hb
  | cons a as ih =>
    rw [List.mapM_cons] at h
    obtain ⟨b, hb, h⟩ := decoding_ok.mp h
    obtain ⟨rest, hrest, h⟩ := decoding_ok.mp h
    cases h
    exact List.forall_mem_cons.mpr ⟨⟨a, hb⟩, ih hrest⟩

/-- The validators of the engine are the records with voting power, under their operators. -/
theorem Boots.seats (hb : Boots K fromBytes genesis localKey cfg e) (a : Address) :
    (e.validatorSet.getByAddress a).isSome ↔
      ∃ info ∈ cfg.validators, 0 < info.votingPower ∧ info.operator = a := by
  obtain ⟨file, -, hd, -⟩ := hb.configures
  obtain ⟨hall, -, hset⟩ := fromInfos_ok.mp hb.set
  have hactive : ∀ info ∈ cfg.validators, isActiveValidator info = true ↔ 0 < info.votingPower := by
    intro info hinfo
    obtain ⟨gv, hgv⟩ := mem_of_mapM hd.validators info hinfo
    rw [isActiveValidator, toInfo_jailed hgv, Bool.not_false, Bool.true_and, decide_eq_true_iff]
  rw [ChainValidatorSet.getByAddress, List.find?_isSome, hset]
  simp only [List.mem_insertionSort, List.mem_filterMap, decide_eq_true_eq]
  constructor
  · rintro ⟨v, ⟨info, hinfo, hv⟩, rfl⟩
    obtain ⟨hmem, hon⟩ := List.mem_filter.mp hinfo
    exact ⟨info, hmem, (hactive info hmem).mp hon, (built?_fields hv).1.symm⟩
  · rintro ⟨info, hmem, hpower, rfl⟩
    have hinfo := List.mem_filter.mpr ⟨hmem, (hactive info hmem).mpr hpower⟩
    obtain ⟨v, hv⟩ := Option.isSome_iff_exists.mp (hall info hinfo)
    exact ⟨v, ⟨info, hinfo, hv⟩, (built?_fields hv).1⟩

end

/-! ## The law -/

/-- The block of an event. -/
def committed : NodeEvent → Option (Block × Replay)
  | .commit b r => some (b, r)
  | _ => none

/-- The blocks that were committed. -/
def commitsOf (hist : List NodeEvent) : List (Block × Replay) := hist.filterMap committed

section

variable {K : Primitives} {PublicKey : Type} {fromBytes : List UInt8 → Exec PublicKey}
  {genesis : Option GenesisFile} {localKey : Bytes 32} {hist : List NodeEvent}
  {node node' : ValidatorNode PublicKey} {event : NodeEvent}

theorem commitsOf_snoc (hist : List NodeEvent) (event : NodeEvent) :
    commitsOf (hist ++ [event]) = commitsOf hist ++ (committed event).toList := by
  rw [commitsOf, List.filterMap_append]
  cases event <;> rfl

/-- The database is what the commits make of the seeds, which are those of the configuration once an engine
has run. -/
structure Unseen (K : Primitives) (fromBytes : List UInt8 → Exec PublicKey) (genesis : Option GenesisFile)
    (localKey : Bytes 32) (hist : List NodeEvent) (node : ValidatorNode PublicKey)
    (ms : List OnChainModelManifest) : Prop where
  database : Run K (seeded ms) (commitsOf hist) node.db
  seeds : ms = [] ∨ ∃ cfg, Configures K genesis cfg ∧ ms = cfg.models
  running : ∀ e, node.engine = some e → ∃ cfg, Boots K fromBytes genesis localKey cfg e ∧ ms = cfg.models
  ran : commitsOf hist ≠ [] → ∃ cfg e, Boots K fromBytes genesis localKey cfg e ∧ ms = cfg.models

theorem run_metaHeight {s t : State} {blocks : List (Block × Replay)} (run : Run K s blocks t)
    (hs : s.metaHeight = none) : t.metaHeight = none ↔ blocks = [] := by
  cases run with
  | nil => exact iff_of_true hs rfl
  | snoc run step => exact iff_of_false (by rw [commits_height step]; simp) (by simp)

theorem seeded_refill (ms : List OnChainModelManifest) : withModels (seeded ms) ms = seeded ms := by
  rw [withModels, seeded, Latest.fill_fill]

theorem configures_models {cfg cfg' : GenesisConfig} (h : Configures K genesis cfg)
    (h' : Configures K genesis cfg') : cfg.models = cfg'.models := by
  obtain ⟨file, rfl, hd, -⟩ := h
  obtain ⟨file', hfile, hd', -⟩ := h'
  obtain rfl := Option.some.inj hfile
  exact Except.ok.inj (hd.models.symm.trans hd'.models)

/-- A database without a block is seeded as a new one is. -/
theorem seedOnce_seeded {ms : List OnChainModelManifest} {cfg : GenesisConfig}
    (hc : Configures K genesis cfg) (hms : ms = [] ∨ ∃ cfg, Configures K genesis cfg ∧ ms = cfg.models) :
    seedOnce (seeded ms) cfg.models = seeded cfg.models := by
  have hnone : (seeded ms).metaHeight = none := rfl
  rw [seedOnce, if_pos hnone]
  obtain rfl | ⟨cfg', hc', rfl⟩ := hms
  · rfl
  · rw [configures_models hc' hc, seeded_refill]

theorem Unseen.boot {ms : List OnChainModelManifest} {db db' : State}
    (hu : Unseen K fromBytes genesis localKey hist ⟨db, none⟩ ms)
    {booted : Except BootError (BootedEngine PublicKey)}
    (h : startValidator K fromBytes genesis localKey db = .ok (booted, db')) :
    ∃ ms', Unseen K fromBytes genesis localKey (hist ++ [.boot]) ⟨db', booted.toOption⟩ ms' := by
  have hcommits : commitsOf (hist ++ [.boot]) = commitsOf hist := by
    rw [commitsOf_snoc]
    exact List.append_nil _
  have hheight := run_metaHeight hu.database rfl
  have hdatabase := hu.database
  by_cases hc : ∃ cfg, Configures K genesis cfg
  · obtain ⟨cfg, hc⟩ := hc
    obtain ⟨hdb, hengine⟩ := configured_start hc h
    by_cases hnil : commitsOf hist = []
    · -- no block yet: what was seeded before is seeded again
      rw [hnil] at hdatabase
      obtain rfl := (run_iff_steps.mp hdatabase).nil_inv
      have hnone : ¬ commitsOf (hist ++ [.boot]) ≠ [] := not_not.mpr (hcommits.trans hnil)
      have hseeded : db' = seeded cfg.models →
          Unseen K fromBytes genesis localKey (hist ++ [.boot]) ⟨db', booted.toOption⟩ cfg.models := by
        rintro rfl
        refine ⟨?_, .inr ⟨cfg, hc, rfl⟩, fun e he => ⟨cfg, ?_, rfl⟩, fun h => absurd h hnone⟩
        · rw [hcommits, hnil]
          exact .nil
        · cases booted with
          | error err => cases he
          | ok e' =>
            obtain rfl := Option.some.inj he
            exact (hengine e' rfl).2
      rw [seedOnce_seeded hc hu.seeds] at hdb hengine
      rcases hdb with rfl | hdb
      · cases booted with
        | ok e => exact ⟨cfg.models, hseeded (hengine e rfl).1⟩
        | error err =>
          refine ⟨ms, ?_, hu.seeds, (fun e he => by cases he), fun h => absurd h hnone⟩
          rw [hcommits, hnil]
          exact .nil
      · exact ⟨cfg.models, hseeded hdb⟩
    · have hkept : seedOnce db cfg.models = db := if_neg fun h => hnil (hheight.mp h)
      rw [hkept, or_self] at hdb
      obtain rfl := hdb
      obtain ⟨cfg', e', hb', rfl⟩ := hu.ran hnil
      refine ⟨cfg'.models, ?_, hu.seeds, fun e he => ⟨cfg, ?_, configures_models hb'.configures hc⟩,
        fun _ => ⟨cfg', e', hb', rfl⟩⟩
      · rw [hcommits]
        exact hdatabase
      · cases booted with
        | error err => cases he
        | ok e'' =>
          obtain rfl := Option.some.inj he
          exact (hengine e'' rfl).2
  · push Not at hc
    have hnil : commitsOf hist = [] := by
      by_contra hne
      obtain ⟨cfg, e, hb, -⟩ := hu.ran hne
      exact hc cfg hb.configures
    obtain ⟨rfl, err, rfl⟩ := unconfigured_start hc (hheight.mpr hnil) h
    refine ⟨ms, ?_, hu.seeds, (fun e he => by cases he), fun h => absurd (hcommits.trans hnil) h⟩
    rw [hcommits]
    exact hdatabase

theorem Unseen.step {ms : List OnChainModelManifest} (hu : Unseen K fromBytes genesis localKey hist node ms)
    (h : NodeStep K fromBytes genesis localKey node event node') :
    ∃ ms', Unseen K fromBytes genesis localKey (hist ++ [event]) node' ms' := by
  cases h with
  | boot h => exact hu.boot h
  | stop =>
    have hcommits : commitsOf (hist ++ [.stop]) = commitsOf hist := by
      rw [commitsOf_snoc]
      exact List.append_nil _
    refine ⟨ms, ?_, hu.seeds, ?_, ?_⟩
    · rw [hcommits]
      exact hu.database
    · intro e he
      cases he
    · rw [hcommits]
      exact hu.ran
  | @commit db db' e b r h =>
    obtain ⟨cfg, hb, hms⟩ := hu.running e rfl
    refine ⟨ms, ?_, hu.seeds, fun e' he' => ?_, fun _ => ⟨cfg, e, hb, hms⟩⟩
    · rw [commitsOf_snoc]
      exact hu.database.snoc h
    · obtain rfl := Option.some.inj he'
      exact ⟨cfg, hb, hms⟩

theorem run_unseen (run : Steps (NodeStep K fromBytes genesis localKey) ⟨.empty, none⟩ hist node) :
    ∃ ms, Unseen K fromBytes genesis localKey hist node ms := by
  induction run with
  | nil => exact ⟨[], .nil, .inl rfl, (fun e he => by cases he), fun h => absurd rfl h⟩
  | snoc run step ih =>
    obtain ⟨ms, hu⟩ := ih
    exact hu.step step

end

/-- From a new database, in any order of starts, stops and commits: the database is what the commits make of
the models of the genesis, each under its last entry; every engine that runs is the one of the configuration,
with the listed validators; and a node that has committed a block starts again with the same engine and leaves
its database alone. -/
theorem restarts_unseen {K : Primitives} {PublicKey : Type} {fromBytes : List UInt8 → Exec PublicKey}
    {genesis : Option GenesisFile} {localKey : Bytes 32} {hist : List NodeEvent}
    {node : ValidatorNode PublicKey}
    (run : Steps (NodeStep K fromBytes genesis localKey) ⟨.empty, none⟩ hist node) :
    ∃ ms, Run K (seeded ms) (commitsOf hist) node.db ∧
      (ms = [] ∨ ∃ cfg, Configures K genesis cfg ∧ ms = cfg.models) ∧
      (∀ id, (seeded ms).models.get id = Latest.last OnChainModelManifest.modelId ms id) ∧
      (∀ e, node.engine = some e → ∃ cfg, Boots K fromBytes genesis localKey cfg e ∧ ms = cfg.models ∧
        ∀ a, (e.validatorSet.getByAddress a).isSome ↔
          ∃ info ∈ cfg.validators, 0 < info.votingPower ∧ info.operator = a) ∧
      (commitsOf hist ≠ [] → ∃ cfg e, Boots K fromBytes genesis localKey cfg e ∧
        startValidator K fromBytes genesis localKey node.db = .ok (.ok e, node.db)) := by
  obtain ⟨ms, hu⟩ := run_unseen run
  refine ⟨ms, hu.database, hu.seeds, fun id => ?_, fun e he => ?_, fun hne => ?_⟩
  · show (Latest.fill OnChainModelManifest.modelId .empty ms).get id = _
    rw [Latest.get_fill]
    exact Option.or_none
  · obtain ⟨cfg, hb, hms⟩ := hu.running e he
    exact ⟨cfg, hb, hms, hb.seats⟩
  · obtain ⟨cfg, e, hb, -⟩ := hu.ran hne
    have hkept : seedOnce node.db cfg.models = node.db :=
      if_neg fun h => hne ((run_metaHeight hu.database rfl).mp h)
    refine ⟨cfg, e, hb, ?_⟩
    rw [hb.start, hkept]

/-- A file with one validator and one model. -/
def soleFile : GenesisFile where
  chainId := "arknet-devnet-1"
  initialHeight := 0
  validators := [⟨"0x" ++ (7 : Bytes 32).hexEncode, (7 : Bytes 20).hexEncode, 1⟩]
  initialAccounts := []
  params := ⟨1000000000, 15000000, 30000000⟩
  genesisMessage := ""
  models := [⟨"org/m", (5 : Bytes 32).hexEncode, 1, [], "mit"⟩]

def soleConfig : GenesisConfig where
  chainId := "arknet-devnet-1"
  initialHeight := 0
  validators := [⟨toyPrimitives.blake3 (7 : Bytes 32).toList, .ed25519 7, 7, 0, 1, true, false⟩]
  initialAccounts := []
  params := ⟨1000000000, 15000000, 30000000⟩
  genesisMessage := ""
  models := [⟨"org/m", 5, 1, [], "mit"⟩]

theorem soleFile_configures : Configures toyPrimitives (some soleFile) soleConfig := by
  have hkey : decodePubkey ("0x" ++ (7 : Bytes 32).hexEncode) = .ok (.ed25519 7) := by
    rw [decodePubkey, (readHex_hexEncode _).2]
  have hoperator : decodeAddress (7 : Bytes 20).hexEncode = .ok 7 := by
    rw [decodeAddress, (readHex_hexEncode _).1]
  refine ⟨soleFile, rfl, ⟨rfl, rfl, ?_, ⟨rfl, rfl⟩, rfl, rfl, ?_⟩, by decide⟩
  · rw [soleFile, List.mapM_cons, List.mapM_nil, GenesisValidator.toInfo, hkey]
    show (do
      let operator ← decodeAddress (7 : Bytes 20).hexEncode
      _) >>= _ = _
    rw [hoperator]
    rfl
  · rw [soleFile, List.mapM_cons, List.mapM_nil, GenesisModel.manifest, (readHex_hexEncode _).1]
    rfl

theorem sole_boots : ∃ e : BootedEngine toyMalachite.PublicKey, Boots toyPrimitives
    (fun bytes => .ok (numeral 32 bytes)) (some soleFile) 7 soleConfig e := by
  obtain ⟨set, hset⟩ : ∃ set : ChainValidatorSet toyMalachite.PublicKey,
      ChainValidatorSet.fromInfos (fun bytes => .ok (numeral 32 bytes)) soleConfig.validators =
        .ok (.ok set) := ⟨_, rfl⟩
  exact ⟨⟨{
    chainId := soleConfig.chainId
    version := 1
    initialHeight := 1
    validatorCount := set.validators.length
    baseFee := soleConfig.params.baseFeeAmount
    gasLimit := soleConfig.params.gasLimit
    gasTarget := soleConfig.params.gasTarget
    localNodeId := toyPrimitives.blake3 (7 : Bytes 32).toList
    genesisMessage := soleConfig.genesisMessage }, set, _⟩,
    soleFile_configures, hset, ⟨_, List.mem_cons_self, rfl⟩, rfl, rfl⟩

/-- Started, stopped, and started again before its first block. -/
theorem restarts_unseen_sole : ∃ (e : BootedEngine toyMalachite.PublicKey) (b : Block) (r : Replay) (s : State),
    Run toyPrimitives (seeded soleConfig.models) [(b, r)] s ∧
    startValidator toyPrimitives (fun bytes => .ok (numeral 32 bytes)) (some soleFile) 7 s = .ok (.ok e, s) := by
  obtain ⟨e, he⟩ := sole_boots
  obtain ⟨r, hr⟩ : ∃ r, replayBlock toyPrimitives (seeded soleConfig.models) (bodyAt 1 []) = .ok r := ⟨_, rfl⟩
  have first := NodeStep.boot (he.start .empty)
  have second := NodeStep.boot (he.start (seeded soleConfig.models))
  have run := (((Steps.nil.snoc first).snoc (.stop _)).snoc second).snoc (.commit (sealBlock_commits hr))
  obtain ⟨ms, hdatabase, -, -, hrunning, hagain⟩ := restarts_unseen run
  obtain ⟨cfg, hb, rfl, -⟩ := hrunning e rfl
  rw [configures_models hb.configures soleFile_configures] at hdatabase
  obtain ⟨cfg', e', -, hstart⟩ := hagain (List.cons_ne_nil _ _)
  exact ⟨e', _, r, _, hdatabase, hstart⟩

end Arknet.Laws
