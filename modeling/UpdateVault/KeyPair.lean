import UpdateVault.Bytes

/-!
The key pair a device authenticates with. Neither of its two descriptions shows
anything of a key but its length.
-/

namespace UpdateVault

structure KeyPair where
  privateKey : Bytes
  publicKey : Bytes
  deriving DecidableEq, Repr

namespace KeyPair

/-- The length of a key, in angle brackets. -/
def lengthMark (key : Bytes) : String := s!"<{key.length} bytes>"

/-- The description of a key pair on one line. -/
def describe (k : KeyPair) : String :=
  "AuthenticationKeyPair \x7b private_key: " ++ lengthMark k.privateKey
    ++ ", public_key: " ++ lengthMark k.publicKey ++ " \x7d"

/-- The description of a key pair with a line for each key. -/
def describeLines (k : KeyPair) : String :=
  "AuthenticationKeyPair \x7b\n    private_key: " ++ lengthMark k.privateKey
    ++ ",\n    public_key: " ++ lengthMark k.publicKey ++ ",\n\x7d"

end KeyPair

end UpdateVault
