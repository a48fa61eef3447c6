import Mathlib.Logic.Function.Basic
import YiQiao.Lib.Rows
import YiQiao.Lib.Runs

/-!
# Refresh tokens

Logins, refreshes and password changes of `routers/auth.py`, a transaction at a time. A refresh commits the use of its
token before it inserts the next one, and a login checks the password before it inserts the first one.
-/

namespace YiQiao

open Lib

/-- A row of `refresh_token_jtis`. -/
structure RefreshTokenJti where
  jti : String
  userId : String
  expiresAt : Int
  usedAt : Option Int
  /-- How many changes the password had seen at the login that the token descends from; no column. -/
  epoch : Nat
  deriving DecidableEq, Repr

/-- The `UPDATE` of `consume_refresh_jti`; no result stands for the status 401. -/
def consumeRefreshJti (jti : String) (now : Int) (tokens : List RefreshTokenJti) : Option (List RefreshTokenJti) :=
  let hit := fun row : RefreshTokenJti => row.jti = jti && row.usedAt.isNone && decide (now < row.expiresAt)
  if hitRows hit tokens = 0 then none
  else some (updateRows hit (fun row => { row with usedAt := some now }) tokens)

/-- The `UPDATE` of `change_password`. -/
def revokeTokens (userId : String) (now : Int) (tokens : List RefreshTokenJti) : List RefreshTokenJti :=
  updateRows (fun row => row.userId = userId && row.usedAt.isNone) (fun row => { row with usedAt := some now }) tokens

/-- How far a request has come. -/
inductive AuthRequest where
  /-- The password was checked, or the token was used: the next token is to be issued. -/
  | authenticated (userId : String) (epoch : Nat)
  /-- The current password was checked. -/
  | changing (userId passwordHash : String)
  /-- The tokens are revoked, and the rows are locked. -/
  | revoked (userId passwordHash : String)
  deriving DecidableEq, Repr

structure AuthWorld where
  passwordHash : String → Option String
  /-- How many changes of its password an account has completed. -/
  changes : String → Nat
  tokens : List RefreshTokenJti
  requests : Nat → Option AuthRequest
  /-- The tokens that were exchanged. -/
  exchanged : List String

inductive AuthStep where
  /-- `login`, up to its commit. -/
  | login (request : Nat) (userId password : String)
  /-- `refresh`, up to the commit of `consume_refresh_jti`. -/
  | exchange (request : Nat) (jti : String) (now : Int)
  /-- `create_refresh_token`. -/
  | issue (request : Nat) (jti : String) (expiresAt : Int)
  /-- `change_password`, up to the new hash. -/
  | check (request : Nat) (userId currentPassword newPassword : String)
  | revoke (request : Nat) (now : Int)
  | commit (request : Nat)

namespace AuthWorld

section

variable (verifyPassword : String → String → Bool) (hashPassword : String → String)

def answer (w : AuthWorld) (request : Nat) (phase : Option AuthRequest) : AuthWorld :=
  { w with requests := Function.update w.requests request phase }

/-- A step that can be taken; a request that is refused leaves everything as it is. -/
def step (w : AuthWorld) : AuthStep → Option AuthWorld
  | .login request userId password =>
      match w.requests request, w.passwordHash userId with
      | none, some hash =>
          if verifyPassword password hash then some (w.answer request (some (.authenticated userId (w.changes userId))))
          else none
      | _, _ => none
  | .exchange request jti now =>
      match w.requests request, w.tokens.find? fun row => row.jti = jti with
      | none, some row =>
          if (w.passwordHash row.userId).isSome then
            (consumeRefreshJti jti now w.tokens).map fun tokens =>
              ({ w with tokens, exchanged := jti :: w.exchanged } : AuthWorld).answer request
                (some (.authenticated row.userId row.epoch))
          else none
      | _, _ => none
  | .issue request jti expiresAt =>
      match w.requests request with
      | some (.authenticated userId epoch) =>
          if jti ∈ w.tokens.map RefreshTokenJti.jti then none
          else some (({ w with tokens := w.tokens ++ [⟨jti, userId, expiresAt, none, epoch⟩] } : AuthWorld).answer
            request none)
      | _ => none
  | .check request userId currentPassword newPassword =>
      match w.requests request, w.passwordHash userId with
      | none, some hash =>
          if verifyPassword currentPassword hash then
            some (w.answer request (some (.changing userId (hashPassword newPassword))))
          else none
      | _, _ => none
  | .revoke request now =>
      match w.requests request with
      | some (.changing userId hash) =>
          some (({ w with tokens := revokeTokens userId now w.tokens } : AuthWorld).answer request
            (some (.revoked userId hash)))
      | _ => none
  | .commit request =>
      match w.requests request with
      | some (.revoked userId hash) =>
          some (({ w with
            passwordHash := Function.update w.passwordHash userId (some hash)
            changes := Function.update w.changes userId (w.changes userId + 1) } : AuthWorld).answer request none)
      | _ => none

end

/-- A token is issued only to a login of the current password, and not while a change of it is under way. -/
def Careful (w : AuthWorld) : AuthStep → Prop
  | .issue request _ _ => ∀ userId epoch, w.requests request = some (.authenticated userId epoch) →
      epoch = w.changes userId ∧ ∀ other hash, w.requests other ≠ some (.revoked userId hash)
  | _ => True

/-! ## Tokens are used once -/

/-- An exchanged token is marked. -/
structure UsedOnce (w : AuthWorld) : Prop where
  jtis : (w.tokens.map RefreshTokenJti.jti).Nodup
  nodup : w.exchanged.Nodup
  used : ∀ jti ∈ w.exchanged, ∃ row ∈ w.tokens, row.jti = jti ∧ row.usedAt ≠ none

variable {verifyPassword : String → String → Bool} {hashPassword : String → String} {w w' : AuthWorld}
  {tokens tokens' : List RefreshTokenJti} {jti userId : String} {now : Int}

/-- What the use of a token does to the rows. -/
theorem consumeRefreshJti_some (h : consumeRefreshJti jti now tokens = some tokens') :
    (∃ row ∈ tokens, row.jti = jti ∧ row.usedAt = none ∧ now < row.expiresAt) ∧
      tokens' = updateRows (fun row => row.jti = jti && row.usedAt.isNone && decide (now < row.expiresAt))
        (fun row => { row with usedAt := some now }) tokens := by
  simp only [consumeRefreshJti] at h
  split at h
  · cases h
  · rename_i hhit
    refine ⟨?_, (Option.some.inj h).symm⟩
    simp only [hitRows_eq_zero, not_forall, Bool.not_eq_false, Bool.and_eq_true, decide_eq_true_eq,
      Option.isNone_iff_eq_none] at hhit
    obtain ⟨row, hrow, ⟨hjti, hunused⟩, hlive⟩ := hhit
    exact ⟨row, hrow, hjti, hunused, hlive⟩

/-- A statement that marks rows. -/
theorem mem_marked {hit : RefreshTokenJti → Bool} {row : RefreshTokenJti}
    (h : row ∈ updateRows hit (fun row => { row with usedAt := some now }) tokens) :
    ∃ old ∈ tokens, row.jti = old.jti ∧ row.userId = old.userId ∧ row.epoch = old.epoch ∧
      (row.usedAt = none → old = row ∧ hit row = false) := by
  rcases mem_updateRows.mp h with ⟨hrow, hhit⟩ | ⟨old, hold, -, rfl⟩
  · exact ⟨row, hrow, rfl, rfl, rfl, fun _ => ⟨rfl, hhit⟩⟩
  · exact ⟨old, hold, rfl, rfl, rfl, by simp⟩

theorem used_marked {hit : RefreshTokenJti → Bool} (h : ∃ row ∈ tokens, row.jti = jti ∧ row.usedAt ≠ none) :
    ∃ row ∈ updateRows hit (fun row => { row with usedAt := some now }) tokens, row.jti = jti ∧ row.usedAt ≠ none := by
  obtain ⟨row, hrow, hjti, hused⟩ := h
  cases hhit : hit row with
  | false => exact ⟨row, mem_updateRows.mpr (.inl ⟨hrow, hhit⟩), hjti, hused⟩
  | true => exact ⟨_, mem_updateRows.mpr (.inr ⟨row, hrow, hhit, rfl⟩), hjti, by simp⟩

theorem step_usedOnce {s : AuthStep} (h : w.UsedOnce) (hstep : w.step verifyPassword hashPassword s = some w') :
    w'.UsedOnce := by
  cases s with
  | login request userId password =>
      simp only [step] at hstep
      split at hstep
      · split at hstep <;> cases hstep
        exact ⟨h.jtis, h.nodup, h.used⟩
      · cases hstep
  | exchange request jti now =>
      simp only [step] at hstep
      split at hstep
      · split at hstep
        · obtain ⟨tokens, hconsume, rfl⟩ := Option.map_eq_some_iff.mp hstep
          obtain ⟨⟨row, hrow, hjti, hunused, hlive⟩, rfl⟩ := consumeRefreshJti_some hconsume
          refine ⟨?_, List.nodup_cons.mpr ⟨fun hmem => ?_, h.nodup⟩, fun jti' hmem => ?_⟩
          · simp only [answer]
            rw [updateRows_map]
            · exact h.jtis
            · exact fun _ => rfl
          · obtain ⟨row', hrow', hjti', hused⟩ := h.used jti hmem
            rw [List.inj_on_of_nodup_map h.jtis hrow' hrow (hjti'.trans hjti.symm)] at hused
            exact hused hunused
          · rcases List.mem_cons.mp hmem with rfl | hmem
            · refine ⟨_, mem_updateRows.mpr (.inr ⟨row, hrow, ?_, rfl⟩), hjti, by simp⟩
              simp [hjti, hunused, hlive]
            · exact used_marked (h.used jti' hmem)
        · cases hstep
      · cases hstep
  | issue request jti expiresAt =>
      simp only [step] at hstep
      split at hstep
      · split at hstep
        · cases hstep
        · rename_i hfresh
          cases hstep
          refine ⟨?_, h.nodup, fun jti' hmem => ?_⟩
          · simp only [answer, List.map_append, List.map_cons, List.map_nil]
            rw [List.nodup_append_comm]
            exact List.nodup_cons.mpr ⟨hfresh, h.jtis⟩
          · obtain ⟨row, hrow, hused⟩ := h.used jti' hmem
            exact ⟨row, List.mem_append_left _ hrow, hused⟩
      · cases hstep
  | check request userId currentPassword newPassword =>
      simp only [step] at hstep
      split at hstep
      · split at hstep <;> cases hstep
        exact ⟨h.jtis, h.nodup, h.used⟩
      · cases hstep
  | revoke request now =>
      simp only [step] at hstep
      split at hstep <;> cases hstep
      refine ⟨?_, h.nodup, fun jti hmem => used_marked (h.used jti hmem)⟩
      simp only [answer, revokeTokens]
      rw [updateRows_map]
      · exact h.jtis
      · exact fun _ => rfl
  | commit request =>
      simp only [step] at hstep
      split at hstep <;> cases hstep
      exact ⟨h.jtis, h.nodup, h.used⟩

/-! ## Tokens of an old password -/

/-- A token that is not marked descends from a login of the current password, and an account whose password is about
to change has no such token. -/
structure Current (w : AuthWorld) : Prop where
  live : ∀ row ∈ w.tokens, row.usedAt = none → row.epoch = w.changes row.userId
  revoked : ∀ request userId hash, w.requests request = some (.revoked userId hash) →
    ∀ row ∈ w.tokens, row.userId = userId → row.usedAt ≠ none

/-- Nothing is added to the tokens that are not marked, and no password comes closer to its change. -/
theorem Current.mono (h : w.Current) (hchanges : w'.changes = w.changes)
    (hrows : ∀ row ∈ w'.tokens, row.usedAt = none → row ∈ w.tokens)
    (hrequests : ∀ request userId hash, w'.requests request = some (.revoked userId hash) →
      w.requests request = some (.revoked userId hash)) : w'.Current := by
  constructor
  · intro row hrow hunused
    rw [hchanges]
    exact h.live row (hrows row hrow hunused) hunused
  · intro request userId hash hrequest row hrow huser hunused
    exact h.revoked request userId hash (hrequests request userId hash hrequest) row (hrows row hrow hunused) huser
      hunused

theorem requests_answer {request other : Nat} {phase : Option AuthRequest} {hash : String}
    (h : (w.answer request phase).requests other = some (.revoked userId hash))
    (hphase : phase ≠ some (.revoked userId hash)) : w.requests other = some (.revoked userId hash) := by
  by_cases hsame : other = request
  · subst hsame
    simp only [answer, Function.update_self] at h
    exact absurd h hphase
  · simpa [answer, hsame] using h

theorem mem_of_unused {hit : RefreshTokenJti → Bool} {row : RefreshTokenJti}
    (h : row ∈ updateRows hit (fun row => { row with usedAt := some now }) tokens) (hunused : row.usedAt = none) :
    row ∈ tokens ∧ hit row = false := by
  obtain ⟨old, hold, -, -, -, hsame⟩ := mem_marked h
  obtain ⟨rfl, hhit⟩ := hsame hunused
  exact ⟨hold, hhit⟩

theorem step_current {s : AuthStep} (h : w.Current) (hcareful : w.Careful s)
    (hstep : w.step verifyPassword hashPassword s = some w') : w'.Current := by
  cases s with
  | login request userId password =>
      simp only [step] at hstep
      split at hstep
      · split at hstep <;> cases hstep
        exact h.mono rfl (fun _ hrow _ => hrow) fun _ _ _ hrequest => requests_answer hrequest (by simp)
      · cases hstep
  | exchange request jti now =>
      simp only [step] at hstep
      split at hstep
      · split at hstep
        · obtain ⟨tokens, hconsume, rfl⟩ := Option.map_eq_some_iff.mp hstep
          obtain ⟨-, rfl⟩ := consumeRefreshJti_some hconsume
          exact h.mono rfl (fun row hrow hunused => (mem_of_unused hrow hunused).1)
            fun _ _ _ hrequest => requests_answer (w := w) hrequest (by simp)
        · cases hstep
      · cases hstep
  | issue request jti expiresAt =>
      simp only [step] at hstep
      split at hstep
      · rename_i userId epoch hrequest
        obtain ⟨hepoch, hnone⟩ := hcareful userId epoch hrequest
        split at hstep <;> cases hstep
        constructor
        · intro row hrow hunused
          rcases List.mem_append.mp hrow with hold | hnew
          · exact h.live row hold hunused
          · rw [List.mem_singleton.mp hnew]
            exact hepoch
        · intro other userId' hash hother row hrow huser
          have hbefore := requests_answer (w := w) hother (by simp)
          rcases List.mem_append.mp hrow with hold | hnew
          · exact h.revoked other userId' hash hbefore row hold huser
          · rw [List.mem_singleton.mp hnew] at huser
            subst huser
            exact absurd hbefore (hnone other hash)
      · cases hstep
  | check request userId currentPassword newPassword =>
      simp only [step] at hstep
      split at hstep
      · split at hstep <;> cases hstep
        exact h.mono rfl (fun _ hrow _ => hrow) fun _ _ _ hrequest => requests_answer hrequest (by simp)
      · cases hstep
  | revoke request now =>
      simp only [step] at hstep
      split at hstep <;> cases hstep
      rename_i userId hash hrequest
      constructor
      · intro row hrow hunused
        exact h.live row (mem_of_unused hrow hunused).1 hunused
      · intro other userId' hash' hother row hrow huser hunused
        obtain ⟨hold, hhit⟩ := mem_of_unused hrow hunused
        by_cases hsame : userId = userId'
        · simp [hsame, huser, hunused] at hhit
        · exact h.revoked other userId' hash' (requests_answer (w := w) hother (by simp [hsame])) row hold huser hunused
  | commit request =>
      simp only [step] at hstep
      split at hstep <;> cases hstep
      rename_i userId hash hrequest
      constructor
      · intro row hrow hunused
        have hother : row.userId ≠ userId := fun huser => h.revoked request userId hash hrequest row hrow huser hunused
        simp only [answer, Function.update_of_ne hother]
        exact h.live row hrow hunused
      · intro other userId' hash' hother row hrow huser
        exact h.revoked other userId' hash' (requests_answer (w := w) hother (by simp)) row hrow huser

/-- An exchange finds the row of its token unused. -/
theorem exchange_unused {request : Nat}
    (hstep : w.step verifyPassword hashPassword (.exchange request jti now) = some w') :
    ∃ row ∈ w.tokens, row.jti = jti ∧ row.usedAt = none := by
  simp only [step] at hstep
  split at hstep
  · split at hstep
    · obtain ⟨tokens, hconsume, -⟩ := Option.map_eq_some_iff.mp hstep
      obtain ⟨⟨row, hrow, hjti, hunused, -⟩, -⟩ := consumeRefreshJti_some hconsume
      exact ⟨row, hrow, hjti, hunused⟩
    · cases hstep
  · cases hstep

/-- Nothing is in progress, and no token is left of an old password. -/
structure Settled (w : AuthWorld) : Prop where
  jtis : (w.tokens.map RefreshTokenJti.jti).Nodup
  exchanged : w.exchanged = []
  requests : ∀ request, w.requests request = none
  live : ∀ row ∈ w.tokens, row.usedAt = none → row.epoch = w.changes row.userId

theorem Settled.usedOnce (h : w.Settled) : w.UsedOnce :=
  ⟨h.jtis, by simp [h.exchanged], by simp [h.exchanged]⟩

theorem Settled.current (h : w.Settled) : w.Current :=
  ⟨h.live, fun request userId hash hrequest => by simp [h.requests] at hrequest⟩

/-- A token is exchanged at most once, and with careful steps none that descends from a login of an old password. -/
theorem refresh_tokens_rotate {w₀ : AuthWorld} {steps : List AuthStep} (h : w₀.Settled)
    (hrun : runFrom (step verifyPassword hashPassword) w₀ steps = some w) :
    w.exchanged.Nodup ∧ (AlongRun (step verifyPassword hashPassword) Careful w₀ steps →
      ∀ request jti now w', w.step verifyPassword hashPassword (.exchange request jti now) = some w' →
        ∃ row ∈ w.tokens, row.jti = jti ∧ row.epoch = w.changes row.userId) := by
  refine ⟨(runFrom_invariant (fun _ _ _ => step_usedOnce) h.usedOnce hrun).nodup, fun hcareful => ?_⟩
  intro request jti now w' hexchange
  have hcurrent := runFrom_keeps (fun _ _ _ => step_current) h.current hcareful hrun
  obtain ⟨row, hrow, hjti, hunused⟩ := exchange_unused hexchange
  exact ⟨row, hrow, hjti, hcurrent.live row hrow hunused⟩

/-! ## A refresh and a change of the password -/

/-- An account that nobody is logged in to. -/
def oneAccount : AuthWorld where
  passwordHash := fun userId => if userId = "ann" then some "old" else none
  changes := fun _ => 0
  tokens := []
  requests := fun _ => none
  exchanged := []

theorem oneAccount_settled : oneAccount.Settled := ⟨List.nodup_nil, rfl, fun _ => rfl, by simp [oneAccount]⟩

abbrev plainStep : AuthWorld → AuthStep → Option AuthWorld := step (fun password hash => password = hash) id

/-- A login, and a refresh that has used its token. -/
def usedToken : List AuthStep := [.login 1 "ann" "old", .issue 1 "t1" 100, .exchange 2 "t1" 10]

def changePassword : List AuthStep := [.check 3 "ann" "old" "new", .revoke 3 11, .commit 3]

def afterAuth (steps : List AuthStep) : AuthWorld := (runFrom plainStep oneAccount steps).getD oneAccount

/-- The next token is there before the password changes. -/
def inTime : List AuthStep := usedToken ++ [.issue 2 "t2" 100] ++ changePassword

/-- The password changes between the use of the token and the next one. -/
def tooLate : List AuthStep := usedToken ++ changePassword ++ [.issue 2 "t2" 100]

theorem inTime_careful : AlongRun plainStep Careful oneAccount inTime := by
  refine .cons trivial rfl (.cons ?_ rfl (.cons trivial rfl (.cons ?_ rfl
    (.cons trivial rfl (.cons trivial rfl (.cons trivial rfl trivial))))))
  · intro userId epoch hrequest
    cases hrequest
    refine ⟨rfl, fun other hash hother => ?_⟩
    by_cases hsame : other = 1
    · subst hsame
      cases hother
    · simp [answer, oneAccount, hsame] at hother
  · intro userId epoch hrequest
    cases hrequest
    refine ⟨rfl, fun other hash hother => ?_⟩
    by_cases hsame : other = 2
    · subst hsame
      cases hother
    · by_cases hsame' : other = 1
      · subst hsame'
        cases hother
      · simp [answer, oneAccount, hsame] at hother

theorem inTime_run : runFrom plainStep oneAccount inTime = some (afterAuth inTime) := rfl

theorem rotated_in_time : (afterAuth inTime).exchanged.Nodup ∧ ∀ request jti now w',
    plainStep (afterAuth inTime) (.exchange request jti now) = some w' →
      ∃ row ∈ (afterAuth inTime).tokens, row.jti = jti ∧ row.epoch = (afterAuth inTime).changes row.userId := by
  obtain ⟨honce, hcurrent⟩ := refresh_tokens_rotate oneAccount_settled inTime_run
  exact ⟨honce, hcurrent inTime_careful⟩

theorem tooLate_run : runFrom plainStep oneAccount tooLate = some (afterAuth tooLate) := rfl

/-- The next token outlives the change of the password. -/
theorem old_login_lives_on :
    oneAccount.Settled ∧ runFrom plainStep oneAccount tooLate = some (afterAuth tooLate) ∧
      (plainStep (afterAuth tooLate) (.exchange 4 "t2" 20)).isSome ∧
      ∀ row ∈ (afterAuth tooLate).tokens, row.jti = "t2" → row.epoch < (afterAuth tooLate).changes row.userId := by
  refine ⟨oneAccount_settled, tooLate_run, rfl, fun row hrow hjti => ?_⟩
  rcases List.mem_cons.mp hrow with rfl | hrow
  · exact absurd hjti (by decide)
  · rw [List.mem_singleton.mp hrow]
    decide

end AuthWorld

end YiQiao
