import YiQiao.Memory.Scope
import YiQiao.Server.Merge
import YiQiao.Server.Workspace

/-!
# The runtime configuration

A server runs with the configuration that its default and the stored overrides make. An update goes into the current
configuration and into the stored overrides, each by a merge of its own.
-/

namespace YiQiao

open Lib

/-! ## Credentials -/

/-- `_has_api_key`. -/
def hasApiKey (config fallback : Entries) : Bool :=
  match (config.lookup "api_key").getD (Payload.get fallback "api_key") with
  | .str s => strip s != ""
  | value => value.truthy

/-- What a server is started with besides its default configuration; `builds` says whether `Memory.from_config` gives
an instance. -/
structure RuntimeSetup where
  platform : Platform
  lowering : Lowering
  requiredProviders : List String
  credentialFallbacks : Entries
  builds : Entries → Bool

section
variable (setup : RuntimeSetup)

/-- `_provider_credentials_missing`. -/
def providerCredentialsMissing (provider config : Value) (fallback : Entries) (credentialFallback : Value)
    (allowVertexConfig : Bool) : Except PyError Bool :=
  match provider with
  | .list _ => .error .typeError
  | .dict _ => .error .typeError
  | .str name =>
      let config := match config with
        | .dict config => config
        | _ => []
      let vertexValue := Payload.get (Dict.update fallback config) "vertexai"
      let vertexEnabled := setup.lowering.lower (vertexValue.pyStr setup.platform) ∈ ["1", "true", "yes", "on"]
      if name ∉ setup.requiredProviders then .ok false
      else if hasApiKey config fallback then .ok false
      else if name = "gemini" ∧ allowVertexConfig = false ∧ (config.lookup "vertexai").isSome then
        .ok <| match credentialFallback with
          | .str s => strip s == ""
          | _ => true
      else if name = "gemini" ∧ vertexEnabled then .ok false
      else match vertexValue, credentialFallback with
        | .null, credentialFallback => .ok !hasApiKey [("api_key", credentialFallback)] []
        | _, .bool b => .ok (decide (name = "gemini") || !hasApiKey [("api_key", .bool b)] [])
        | _, credentialFallback => .ok !hasApiKey [("api_key", credentialFallback)] []
  | _ => .ok false

/-- `_credential_fallback`. -/
def credentialFallback (scope : String) (provider : Value) : Except PyError Value :=
  match setup.credentialFallbacks.lookup (scope ++ ":" ++ provider.pyStr setup.platform) with
  | some value => .ok value
  | none => match provider with
    | .list _ => .error .typeError
    | .dict _ => .error .typeError
    | .str name => .ok (Payload.get setup.credentialFallbacks name)
    | _ => .ok .null

/-- The check of the `llm` or the `embedder` section. -/
def sectionCredentialsMissing (config : Entries) (name : String) : Except PyError Bool :=
  match config.lookup name with
  | some (.dict d) => do
      let fallback ← credentialFallback setup name (Payload.get d "provider")
      providerCredentialsMissing setup (Payload.get d "provider") (Payload.get d "config") [] fallback (name == "llm")
  | _ => .ok false

/-- The check of the `reranker` section. -/
def rerankerCredentialsMissing (config : Entries) : Except PyError Bool :=
  match config.lookup "reranker" with
  | some (.dict reranker) => match Payload.get reranker "provider" with
    | .str "llm_reranker" =>
        let rerankerConfig := match Payload.get reranker "config" with
          | .dict d => d
          | _ => []
        let outer := (Payload.get rerankerConfig "provider").orElse (.str "openai")
        match Payload.get rerankerConfig "llm" with
        | .dict nested => do
            let provider := (Payload.get nested "provider").orElse outer
            let fallback ← credentialFallback setup "reranker" provider
            providerCredentialsMissing setup provider (Payload.get nested "config") rerankerConfig fallback true
        | _ => do
            let fallback ← credentialFallback setup "reranker" outer
            providerCredentialsMissing setup outer (.dict rerankerConfig) [] fallback true
    | _ => .ok false
  | _ => .ok false

/-- `_missing_required_provider_credentials`. -/
def missingProviderCredentials (config : Entries) : Except PyError Bool := do
  if ← sectionCredentialsMissing setup config "llm" then return true
  if ← sectionCredentialsMissing setup config "embedder" then return true
  rerankerCredentialsMissing setup config

/-! ## Updates -/

/-- The configuration in force, whether there is a memory instance, and the stored row of overrides. -/
structure RuntimeState where
  current : Entries
  running : Bool
  overrides : Option Entries

inductive ConfigError where
  | incomplete
  | build
  | python (error : PyError)

/-- An update and what the store does meanwhile: failures of the store are swallowed. -/
structure ConfigUpdate where
  updates : Object
  loads : Bool
  saves : Bool

/-- The configuration that the default and the overrides make. -/
def restartConfig (default : Entries) (overrides : Option Entries) : Entries :=
  match overrides with
  | some (e :: overrides) => mergeConfig default (e :: overrides)
  | _ => default

/-- `initialize_state`. -/
def initializeState (default : Entries) (overrides : Option Entries) : Except ConfigError RuntimeState :=
  let current := restartConfig default overrides
  match missingProviderCredentials setup current with
  | .error error => .error (.python error)
  | .ok true => .ok ⟨current, false, overrides⟩
  | .ok false => if setup.builds current then .ok ⟨current, true, overrides⟩ else .error .build

/-- What `_load_overrides`, `_merge_config` and `_save_overrides` leave in the store. -/
def ConfigUpdate.store (update : ConfigUpdate) (overrides : Option Entries) : Option Entries :=
  let loaded := if update.loads then overrides.getD [] else []
  if update.saves then some (mergeConfig loaded update.updates.entries) else overrides

/-- `update_config`; an error leaves the state as it was. -/
def updateConfig (state : RuntimeState) (update : ConfigUpdate) : Except ConfigError RuntimeState :=
  let current := mergeConfig state.current update.updates.entries
  match missingProviderCredentials setup current with
  | .error error => .error (.python error)
  | .ok true =>
      if state.running then .error .incomplete else .ok ⟨current, false, update.store state.overrides⟩
  | .ok false =>
      if setup.builds current then .ok ⟨current, true, update.store state.overrides⟩ else .error .build

def RuntimeState.after (state : RuntimeState) (update : ConfigUpdate) : RuntimeState :=
  match updateConfig setup state update with
  | .ok next => next
  | .error _ => state

/-- The states that the updates lead through. -/
def configStates (state : RuntimeState) : List ConfigUpdate → List RuntimeState
  | [] => [state]
  | update :: rest => state :: configStates (state.after setup update) rest

/-! ## The configuration in force and the stored one -/

/-- The configuration in force is the one that a restart would build. -/
def InSync (default : Object) (state : RuntimeState) : Prop :=
  (Value.dict state.current).Equal (.dict (restartConfig default.entries state.overrides))

/-- Whether the update is carried out. -/
def Accepts (state : RuntimeState) (update : ConfigUpdate) : Bool :=
  let current := mergeConfig state.current update.updates.entries
  match missingProviderCredentials setup current with
  | .error _ => false
  | .ok true => !state.running
  | .ok false => setup.builds current

/-- An update that is carried out reaches the store, and may be merged into the overrides as into the default. -/
def ConfigUpdate.Kept (default : Object) (state : RuntimeState) (update : ConfigUpdate) : Prop :=
  Accepts setup state update = true →
    update.loads = true ∧ update.saves = true ∧
      Coherent default.entries (state.overrides.getD []) update.updates.entries

def AllKept (default : Object) : RuntimeState → List ConfigUpdate → Prop
  | _, [] => True
  | state, update :: rest => update.Kept setup default state ∧ AllKept default (state.after setup update) rest

end

section
variable {setup : RuntimeSetup} {default : Object} {state : RuntimeState} {update : ConfigUpdate}

theorem restartConfig_eq (default : Entries) (overrides : Option Entries) :
    restartConfig default overrides = mergeConfig default (overrides.getD []) := by
  have hnil : mergeConfig default [] = default := by
    rw [mergeConfig]
    split
    · rename_i hother
      obtain ⟨_, _, _, hupdated, _⟩ := otherProvider_iff.mp hother
      cases hupdated
    · rfl
  cases overrides with
  | none => exact hnil.symm
  | some overrides => cases overrides with
    | nil => exact hnil.symm
    | cons e overrides => rfl

/-- An update is carried out, on the current configuration and on the store, or the state stays. -/
theorem after_cases (setup : RuntimeSetup) (state : RuntimeState) (update : ConfigUpdate) :
    (Accepts setup state update = true ∧
      (state.after setup update).current = mergeConfig state.current update.updates.entries ∧
      (state.after setup update).overrides = update.store state.overrides) ∨ state.after setup update = state := by
  cases hmissing : missingProviderCredentials setup (mergeConfig state.current update.updates.entries) with
  | error error => exact .inr (by simp [RuntimeState.after, updateConfig, hmissing])
  | ok missing =>
      cases missing with
      | true =>
          cases hrunning : state.running with
          | true => exact .inr (by simp [RuntimeState.after, updateConfig, hmissing, hrunning])
          | false => exact .inl (by simp [RuntimeState.after, updateConfig, Accepts, hmissing, hrunning])
      | false =>
          cases hbuilds : setup.builds (mergeConfig state.current update.updates.entries) with
          | true => exact .inl (by simp [RuntimeState.after, updateConfig, Accepts, hmissing, hbuilds])
          | false => exact .inr (by simp [RuntimeState.after, updateConfig, hmissing, hbuilds])

/-- What holds of the state between updates. -/
structure RuntimeState.Sound (default : Object) (state : RuntimeState) : Prop where
  sync : InSync default state
  wf : (Value.dict (state.overrides.getD [])).WF

theorem initializeState_sound {overrides : Option Entries} (hwf : (Value.dict (overrides.getD [])).WF)
    (h : initializeState setup default.entries overrides = .ok state) : state.Sound default := by
  unfold initializeState at h
  dsimp only at h
  split at h
  · cases h
  · cases h
    exact ⟨Alike.refl _, hwf⟩
  · split at h
    · cases h
      exact ⟨Alike.refl _, hwf⟩
    · cases h

theorem RuntimeState.Sound.after (h : state.Sound default) (hkept : update.Kept setup default state) :
    (state.after setup update).Sound default := by
  rcases after_cases setup state update with ⟨haccepts, hcurrent, hoverrides⟩ | hsame
  · obtain ⟨hloads, hsaves, hcoherent⟩ := hkept haccepts
    have hstore : update.store state.overrides =
        some (mergeConfig (state.overrides.getD []) update.updates.entries) := by
      rw [ConfigUpdate.store, hloads, hsaves]
      rfl
    constructor
    · have hsync : Alike (some (.dict state.current))
          (some (.dict (mergeConfig default.entries (state.overrides.getD [])))) :=
        restartConfig_eq default.entries state.overrides ▸ h.sync
      rw [InSync, restartConfig_eq, hcurrent, hoverrides, hstore, Option.getD_some]
      exact (mergeConfig_congr hsync update.updates.wf).trans (mergeConfig_assoc hcoherent h.wf update.updates.wf)
    · rw [hoverrides, hstore, Option.getD_some]
      exact mergeConfig_wf h.wf update.updates.wf
  · rw [hsame]
    exact h

theorem RuntimeState.Sound.run {updates : List ConfigUpdate} (h : state.Sound default)
    (hkept : AllKept setup default state updates) : ∀ reached ∈ configStates setup state updates, InSync default reached := by
  induction updates generalizing state with
  | nil =>
      intro reached hreached
      rw [List.mem_singleton.mp hreached]
      exact h.sync
  | cons update rest ih =>
      intro reached hreached
      rcases List.mem_cons.mp hreached with rfl | hreached
      · exact h.sync
      · exact ih (h.after hkept.1) hkept.2 reached hreached

end

/-- A server that was started from its default configuration runs with what a restart would give, as long as its
updates are stored and may be put together. -/
theorem updates_stay_in_sync (setup : RuntimeSetup) (default : Object) (updates : List ConfigUpdate)
    (state : RuntimeState) (hstart : initializeState setup default.entries none = .ok state)
    (hkept : AllKept setup default state updates) :
    ∀ reached ∈ configStates setup state updates, InSync default reached := by
  have hwf : (Value.dict (Option.getD (none : Option Entries) [])).WF := ⟨List.nodup_nil, trivial⟩
  exact (initializeState_sound hwf hstart).run hkept

/-- A server without credentials to wait for. -/
def openSetup : RuntimeSetup := ⟨Platform.ascii, Lowering.ascii, [], [], fun _ => true⟩

/-- A configuration of the `llm` section alone. -/
def llmObject (llm : Entries) (h : (Value.dict llm).WF) : Object := ⟨[("llm", .dict llm)], List.nodup_singleton _, h, trivial⟩

def openaiDefault : Object :=
  llmObject [("provider", .str "openai"), ("config", .dict [("openai_base_url", .str "http://relay")])]
    (by simp [Value.WF, Value.WFEntries, Dict.Unique])

def toOllama : ConfigUpdate where
  updates := llmObject [("provider", .str "ollama"), ("config", .dict [("model", .str "qwen")])]
    (by simp [Value.WF, Value.WFEntries, Dict.Unique])
  loads := true
  saves := true

def hotter : ConfigUpdate where
  updates := llmObject [("config", .dict [("temperature", .num 1 0)])] (by simp [Value.WF, Value.WFEntries, Dict.Unique])
  loads := true
  saves := true

def backToOpenai : ConfigUpdate where
  updates := llmObject [("provider", .str "openai"), ("config", .dict [("model", .str "gpt")])]
    (by simp [Value.WF, Value.WFEntries, Dict.Unique])
  loads := true
  saves := true

theorem ollama_stays_in_sync :
    (configStates openSetup ⟨openaiDefault.entries, true, none⟩ [toOllama, hotter]).length = 3 ∧
      ∀ reached ∈ configStates openSetup ⟨openaiDefault.entries, true, none⟩ [toOllama, hotter],
        InSync openaiDefault reached := by
  refine ⟨rfl, ?_⟩
  refine updates_stay_in_sync openSetup openaiDefault [toOllama, hotter] ⟨openaiDefault.entries, true, none⟩ rfl
    ⟨fun _ => ⟨rfl, rfl, ?_⟩, fun _ => ⟨rfl, rfl, ?_⟩, trivial⟩
  · refine .merged (by decide) (by decide) (by decide) (fun key base old value _ hold => ?_)
      (fun key base old value _ hold => ?_)
    · cases hold
    · cases hold
  · refine .merged (by decide) (by decide) (by decide) (fun key base old value hbase hold hvalue => ?_)
      (fun key base old value hbase hold hleaf => ?_)
    · by_cases hkey : key = "llm"
      · subst hkey
        cases hbase
        cases hold
        cases hvalue
        exact .overridden (by decide) (by decide) (fun provider h => by cases h)
      · have hnone : openaiDefault.entries.lookup key = none := by
          rw [Dict.lookup_eq_none_iff_keys]
          simpa [openaiDefault, llmObject] using hkey
        rw [hnone] at hbase
        cases hbase
    · by_cases hkey : key = "llm"
      · subst hkey
        cases hold
        cases hleaf
      · have hnone : openaiDefault.entries.lookup key = none := by
          rw [Dict.lookup_eq_none_iff_keys]
          simpa [openaiDefault, llmObject] using hkey
        rw [hnone] at hbase
        cases hbase

/-- Switching away from the default provider and back leaves the default section behind, until the server restarts. -/
theorem provider_comes_back : ¬ ∀ (setup : RuntimeSetup) (default : Object) (updates : List ConfigUpdate)
    (state : RuntimeState), initializeState setup default.entries none = .ok state →
      (∀ update ∈ updates, update.loads = true ∧ update.saves = true) →
        ∀ reached ∈ configStates setup state updates, InSync default reached := by
  intro h
  have hsync := h openSetup openaiDefault [toOllama, backToOpenai] ⟨openaiDefault.entries, true, none⟩ rfl
    (by simp [toOllama, backToOpenai]) _ (.tail _ (.tail _ (.head _)))
  have hplace := hsync [.key "llm", .key "config", .key "openai_base_url"]
  revert hplace
  decide

end YiQiao
