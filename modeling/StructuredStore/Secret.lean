import StructuredStore.Store.Scalar

/-!
# Secrets

Encrypted values and hashed passwords.  The cryptography comes from providers
registered by name; the name is stored beside every ciphertext and hash, so
that a value is read with the provider it was written with.
-/

namespace StructuredStore

/-- A symmetric cipher; a refusal comes with its reason. -/
structure Cipher where
  /-- The ciphertext and the nonce for a key and a plaintext. -/
  encrypt : Bytes → Bytes → Except String (Bytes × Bytes)
  /-- The plaintext for a key, a ciphertext and a nonce. -/
  decrypt : Bytes → Bytes → Bytes → Except String Bytes

/-- What hashing a password may cost. -/
structure HashCost where
  iterations : UInt32
  memoryKib : UInt32
  parallelism : UInt32
deriving DecidableEq, Repr

/-- A password hash; a refusal comes with its reason. -/
structure PasswordHasher where
  /-- The hash and the salt of a password. -/
  hash : Bytes → HashCost → Except String (Bytes × Bytes)
  /-- Whether a password has the given hash and salt. -/
  verify : Bytes → Bytes → Bytes → Except String Bool

/-- The registered providers, by name. -/
structure Providers where
  ciphers : List (String × Cipher)
  hashers : List (String × PasswordHasher)

namespace Providers

/-- No providers. -/
def none : Providers := ⟨[], []⟩

/-- Registers a cipher, over one of the same name. -/
def addCipher (providers : Providers) (name : String) (cipher : Cipher) : Providers :=
  { providers with ciphers := (name, cipher) :: providers.ciphers }

/-- Registers a password hash, over one of the same name. -/
def addHasher (providers : Providers) (name : String) (hasher : PasswordHasher) :
    Providers :=
  { providers with hashers := (name, hasher) :: providers.hashers }

/-- The entry of a name. -/
def find {α : Type} (name : String) (entries : List (String × α)) : StoreM α :=
  match entries.find? fun entry => entry.1 == name with
  | some entry => pure entry.2
  | .none => throw (.unknownAlgorithm name)

/-- The cipher of a name. -/
def cipher (providers : Providers) (name : String) : StoreM Cipher :=
  find name providers.ciphers

/-- The password hash of a name. -/
def hasher (providers : Providers) (name : String) : StoreM PasswordHasher :=
  find name providers.hashers

end Providers

namespace Secret

/-- A provider's result, its refusal as the given failure. -/
def guarded {α : Type} (failure : String → StoreError) : Except String α → StoreM α
  | .ok a => pure a
  | .error reason => throw (failure reason)

/-- Encrypts a value and stores it at a key. -/
def setEncrypted (providers : Providers) (key : String) (value : Value)
    (algorithm : String) (secret : Bytes) : StoreM Unit := do
  let cipher ← providers.cipher algorithm
  let plaintext ← Store.lift (Frame.encode ⟨value, none⟩)
  let (ciphertext, nonce) ← guarded .encryptionFailure (cipher.encrypt secret plaintext)
  Store.set key (.encrypted ⟨algorithm, ciphertext, nonce⟩)

/-- Decrypts the value at a key.  A plaintext that is no frame shows that the
key was wrong. -/
def getDecrypted (providers : Providers) (key : String) (secret : Bytes) :
    StoreM Value := do
  match ← Store.getAs key .encrypted with
  | .encrypted record =>
      let cipher ← providers.cipher record.algorithm
      let plaintext ←
        guarded .decryptionFailure (cipher.decrypt secret record.ciphertext record.nonce)
      match Frame.decode plaintext with
      | .ok frame => return frame.value
      | .error fault => throw (.decryptionFailure fault.message)
  | other => throw (Store.mismatch .encrypted other)

/-- Hashes a password and stores the hash at a key. -/
def setPassword (providers : Providers) (key password algorithm : String)
    (cost : HashCost) : StoreM Unit := do
  let hasher ← providers.hasher algorithm
  let (hash, salt) ←
    guarded .encryptionFailure (hasher.hash (Utf8.encode password) cost)
  Store.set key (.password ⟨algorithm, hash, salt⟩)

/-- Whether a password is the one whose hash lies at a key. -/
def verifyPassword (providers : Providers) (key password : String) : StoreM Bool := do
  match ← Store.getAs key .password with
  | .password record =>
      let hasher ← providers.hasher record.algorithm
      guarded .decryptionFailure
        (hasher.verify (Utf8.encode password) record.hash record.salt)
  | other => throw (Store.mismatch .password other)

end Secret
end StructuredStore
