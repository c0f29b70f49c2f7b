import DreamChain.Chain.PermissionTree
import DreamChain.Chain.AuthorizationManager

/-!
Permission links name permissions of the account they belong to. Since links are only made to
existing permissions and a permission is not removed while a link names it, the lookup of a
minimum permission never comes to a permission that is missing.
-/

namespace DreamChain
open Library FlatMap

/-- Every link is to `eosio.any` or to a permission of its own account, and accounts have an
active permission. -/
structure ChainDb.LinksResolved (db : ChainDb) : Prop where
  link : ∀ {account code type requiredPermission},
    db.links.find? (linkKey account code type) = some requiredPermission →
      requiredPermission = config.eosioAnyName ∨ ⟨account, requiredPermission⟩ ∈ db.permissions.keys
  active : ∀ {a}, a ∈ db.accounts.keys → ⟨a, config.activeName⟩ ∈ db.permissions.keys

def LinksToExisting (E : Environment) : Prop := E.onlyLinkToExistingPermission = true

theorem linkKey_injective {account account' code code' type type'} :
    linkKey account code type = linkKey account' code' type' ↔
      account = account' ∧ code = code' ∧ type = type' := by
  simp only [linkKey, toLex_inj, Prod.mk.injEq]

namespace ChainDb.LinksResolved

variable {db db' : ChainDb}

theorem of_same (hsame : SameAuthorization db db') (h : db.LinksResolved) : db'.LinksResolved where
  link hlink := by
    rw [hsame.links] at hlink
    rw [hsame.permissions]
    exact h.link hlink
  active ha := by
    rw [hsame.permissions]
    exact h.active ((hsame.accounts _).mp ha)

theorem mono (h : db.LinksResolved) (haccounts : ∀ a ∈ db'.accounts.keys, a ∈ db.accounts.keys)
    (hpermissions : ∀ l ∈ db.permissions.keys, l ∈ db'.permissions.keys)
    (hlinks : db'.links = db.links) : db'.LinksResolved where
  link hlink := (h.link (hlinks ▸ hlink)).imp_right (hpermissions _)
  active ha := hpermissions _ (h.active (haccounts _ ha))

theorem step {data : ActionData} (h : db.LinksResolved)
    (hstep : AuthorizationChange LinksToExisting db data db') : db'.LinksResolved := by
  cases hstep with
  | unchanged hsame => exact of_same hsame h
  | newaccount _ _ _ hsame =>
    refine of_same hsame ⟨fun hlink => (h.link hlink).imp_right fun hmem => ?_, fun ha => ?_⟩
    · simp only [withAccount, mem_keys_insert]
      exact .inr (.inr hmem)
    · simp only [withAccount, mem_keys_insert] at ha ⊢
      cases ha with
      | inl heq => exact .inl (heq ▸ rfl)
      | inr ha => exact .inr (.inr (h.active ha))
  | modify _ hsame | create _ _ _ _ hsame =>
    refine of_same hsame (h.mono (fun _ ha => ha) (fun l hl => ?_) rfl)
    exact (mem_keys_insert _ _ _ _).mpr (.inr hl)
  | remove hactive _ hunlinked _ _ _ hsame =>
    refine of_same hsame ⟨fun hlink => (h.link hlink).imp_right fun hmem => ?_, fun ha => ?_⟩
    · refine (mem_keys_erase _ _ _).mpr ⟨fun heq => ?_, hmem⟩
      cases heq
      exact hunlinked _ ((db.links.mem_entries_iff _ _).mpr hlink) rfl rfl
    · refine (mem_keys_erase _ _ _).mpr ⟨fun heq => ?_, h.active ha⟩
      exact hactive (congrArg PermissionLevel.permission heq).symm
  | link hE hexists hsame =>
    refine of_same hsame ⟨fun hlink => ?_, h.active⟩
    rw [find?_insert] at hlink
    split at hlink
    · rename_i hkey
      obtain ⟨rfl, rfl, rfl⟩ := linkKey_injective.mp hkey
      cases hlink
      refine hexists.imp_right fun hexists => ?_
      obtain ⟨⟨actor, permission⟩, hmem, rfl, hactor⟩ := hexists
      exact hactor hE ▸ hmem
    · exact h.link hlink
  | unlink hsame =>
    refine of_same hsame ⟨fun hlink => ?_, h.active⟩
    exact h.link (find?_erase_eq_some_iff _ |>.mp hlink).2

end ChainDb.LinksResolved

theorem linksResolved_emptyDatabase : emptyDatabase.LinksResolved where
  link hlink := nomatch hlink
  active ha := absurd ha List.not_mem_nil

/-- No link dangles, and the minimum permission that is looked up for an authorization of an
account exists. -/
theorem links_resolved {db : ChainDb} (h : Reachable LinksToExisting db) :
    (∀ account code type requiredPermission,
      db.links.find? (linkKey account code type) = some requiredPermission →
        requiredPermission = config.eosioAnyName ∨
          ⟨account, requiredPermission⟩ ∈ db.permissions.keys) ∧
    ∀ declaredAuth : PermissionLevel, declaredAuth.actor ∈ db.accounts.keys →
      ∀ act : Action, ¬ IsSpecialCase act.account act.name →
        ∃ minimum, lookupMinimumPermission db declaredAuth.actor act.account act.name = .ok minimum ∧
          ∀ name ∈ minimum, ∃ p, db.getPermission ⟨declaredAuth.actor, name⟩ = .ok p := by
  have hlinks : db.LinksResolved :=
    h.authorization_rule linksResolved_emptyDatabase fun h hstep => h.step hstep
  have htree := h.treeShaped
  refine ⟨fun _ _ _ _ hlink => hlinks.link hlink, fun declaredAuth ha act hspecial => ?_⟩
  have hget : ∀ name, ⟨declaredAuth.actor, name⟩ ∈ db.permissions.keys →
      ∃ p, db.getPermission ⟨declaredAuth.actor, name⟩ = .ok p := by
    intro name hmem
    obtain ⟨p, hp⟩ := (db.permissions.mem_keys_iff _).mp hmem
    refine ⟨p, ChainDb.getPermission_ok.mpr ⟨?_, hp⟩⟩
    cases htree.owned hp with
    | inl heq => exact absurd (congrArg PermissionLevel.actor heq) (htree.account_ne_zero ha)
    | inr howned => exact howned.2
  have hlookup : ∀ {name}, lookupLinkedPermission db declaredAuth.actor act.account act.name =
      some name → name = config.eosioAnyName ∨ ⟨declaredAuth.actor, name⟩ ∈ db.permissions.keys := by
    intro name hname
    rw [lookupLinkedPermission] at hname
    split at hname
    · rename_i hlink
      cases hname
      exact hlinks.link hlink
    · exact hlinks.link hname
  simp only [lookupMinimumPermission, eosAssert, if_pos hspecial]
  cases hlinked : lookupLinkedPermission db declaredAuth.actor act.account act.name with
  | none => exact ⟨_, rfl, fun name hname => Option.some.inj hname ▸ hget _ (hlinks.active ha)⟩
  | some linked =>
    refine ⟨_, rfl, fun name hname => ?_⟩
    split at hname
    · cases hname
    · rename_i hany
      cases hname
      exact hget _ ((hlookup hlinked).resolve_left hany)

def sampleLinkauth : Action where
  account := config.systemAccountName
  name := LinkAuth.getName
  authorization := [⟨sampleAccount, config.activeName⟩]
  data := .linkauth ⟨sampleAccount, sampleAccount, 0, samplePermission⟩

def linkedChain : Applied ChainDb := do
  let db ← sampleChain
  applyActions sampleEnvironment [sampleLinkauth] db

theorem links_resolved_linkedChain : ∃ db, linkedChain = .ok db ∧
    db.links.find? (linkKey sampleAccount sampleAccount 0) = some samplePermission ∧
      ⟨sampleAccount, samplePermission⟩ ∈ db.permissions.keys := by
  obtain ⟨db, hdb, hlink⟩ : ∃ db, linkedChain = .ok db ∧
      db.links.find? (linkKey sampleAccount sampleAccount 0) = some samplePermission := by
    decide +kernel
  have hchain := hdb
  simp only [linkedChain, bind_eq_ok] at hchain
  obtain ⟨db₀, hdb₀, hrun⟩ := hchain
  have hreach : Reachable LinksToExisting db :=
    (reachable_sampleChain (by rfl) hdb₀).applyActions (by rfl) hrun
  refine ⟨db, hdb, hlink, ?_⟩
  exact ((links_resolved hreach).1 _ _ _ _ hlink).resolve_left (by decide +kernel)

end DreamChain
