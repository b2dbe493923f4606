import TonNet.Tlb.Error

namespace TonNet

-- What a call on the client can fail with.
inductive Error
  | transport (what : String)
  | handshake
  | timeout
  | liteServer (code : Int32) (message : String)
  | decode (what : String)
  | address (what : String)
  | config (what : String)
  | cell (what : String)
  | proof (what : String)
  | sync (what : String)
  | stale (ageSeconds limitSeconds : Nat)
  | clockBehind (bySeconds toleratedSeconds : Nat)
  | connectionLost
deriving DecidableEq

end TonNet
