import GoSecrets.Basic
import GoSecrets.Cache
import GoSecrets.Tag
import GoSecrets.Types
import GoSecrets.Json
import GoSecrets.JsonRoundTrip
import GoSecrets.Fragment
import GoSecrets.Convert
import GoSecrets.Walk
import GoSecrets.Resolve
import GoSecrets.K8s
import GoSecrets.Watch
import GoSecrets.TypeGraph
import GoSecrets.Float64
import GoSecrets.Rendering
import GoSecrets.Close
import GoSecrets.TagRoundTrip
import GoSecrets.Stop
import GoSecrets.Fetch
import GoSecrets.Vault
import GoSecrets.Validate
import GoSecrets.WatchLock
import GoSecrets.Providers
import GoSecrets.JsonMarshal
import GoSecrets.FragmentPaths
