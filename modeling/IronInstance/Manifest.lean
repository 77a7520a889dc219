import IronInstance.Codec
import IronInstance.State

/-!
# The hashed member manifest

Membership compares hex text without regard to ASCII case. The mTLS gate looks at
the pubkey of an entry alone; `/enroll` looks at pubkey and hash of one entry.
-/

namespace IronInstance
set_option autoImplicit false

structure ManifestMember where
  pubkey : String
  hash : String
  deriving DecidableEq

structure Manifest where
  cohortId : String
  members : List ManifestMember
  deriving DecidableEq

namespace Manifest

def containsPubkey (M : Manifest) (point : Pubkey) : Bool :=
  M.members.any fun m => eqIgnoreAsciiCase m.pubkey (hexEncode point.toList)

/-- The membership test of `/enroll`: one entry matches on both fields. -/
def containsPair (M : Manifest) (pk : Pubkey) (h : MemberHash) : Bool :=
  M.members.any fun m =>
    eqIgnoreAsciiCase m.pubkey (hexEncode pk.toList) && eqIgnoreAsciiCase m.hash (hexEncode h.toList)

theorem containsPair_iff {M : Manifest} {pk : Pubkey} {h : MemberHash} :
    M.containsPair pk h = true ↔ ∃ m ∈ M.members, eqIgnoreAsciiCase m.pubkey (hexEncode pk.toList) = true ∧
      eqIgnoreAsciiCase m.hash (hexEncode h.toList) = true := by
  simp [containsPair]

theorem containsPubkey_of_pair {M : Manifest} {pk : Pubkey} {h : MemberHash}
    (hp : M.containsPair pk h = true) : M.containsPubkey pk = true := by
  obtain ⟨m, hm, hpk, -⟩ := containsPair_iff.mp hp
  exact List.any_eq_true.mpr ⟨m, hm, hpk⟩

end Manifest

end IronInstance
