import PromFleet.StoreRefinement
import PromFleet.EnrollLaws
import PromFleet.BootstrapLaws
import PromFleet.EnforcerReach
import PromFleet.RevocationSync
import PromFleet.ProxyBodyLaws
import PromFleet.FactsSync
import PromFleet.RegistryLabels
import PromFleet.FanoutGrid
import PromFleet.FiringAlerts
import PromFleet.RegistryGaugeLaws
import PromFleet.SerialText
import PromFleet.ProxyScope
import PromFleet.SessionChoice
import PromFleet.AllowList
import PromFleet.ProxyBudgets
import PromFleet.RateLimiter
import PromFleet.VerifierLimits
import PromFleet.AdminBootstrapLaws
import PromFleet.CARotationVeto
import PromFleet.ToolForms
import PromFleet.DurationLaws
import PromFleet.NearestNames
import PromFleet.SpokeCALaws
import PromFleet.RenewNonce
import PromFleet.Reconnect
import PromFleet.CARotationForce
import PromFleet.CARotationHorizon
import PromFleet.RenewRaces
import PromFleet.EncodeOrder
import PromFleet.FanoutLaws
import PromFleet.CoverageSignals
import PromFleet.DialerPool
import PromFleet.SessionLimit
import PromFleet.CAIssuers
import PromFleet.IdentityFiles
